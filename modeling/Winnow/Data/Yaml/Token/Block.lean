import Winnow.Data.Yaml.Token
import Winnow.Data.Yaml.Cursor

/-!
# Scalars as blocks of lines

A block of indented lines is one scalar, with its line breaks as they are or folded. The header may
say how many columns the indentation has, and what becomes of the line breaks at the end.
-/

namespace Winnow.Yaml.Block

/-- What becomes of the last line breaks. -/
inductive Chomping where
  | strip
  | clip
  | keep
  deriving DecidableEq, Repr

def chomping? : Scan (Option Chomping) := do
  let code ← Scan.current
  if code = 43 || code = 45 then
    Scan.skip
    Scan.need 1
    return some (if code = 43 then .keep else .strip)
  else return none

def columns? (start : Mark) : Scan (Option Nat) := do
  let code ← Scan.current
  if isDigit code then
    if code = 48 then Scan.fail start "found an indentation indicator equal to 0"
    Scan.skip
    Scan.need 1
    return some (code - 48)
  else return none

def header (start : Mark) : Scan (Chomping × Option Nat) := do
  Scan.need 1
  match ← chomping? with
  | some chomping => return (chomping, ← columns? start)
  | none =>
    match ← columns? start with
    | some columns => return ((← chomping?).getD .clip, some columns)
    | none => return (.clip, none)

def indentation (column? : Option Nat) : (steps : Nat) → Scan Unit
  | 0 => return
  | n + 1 => do
    if (← Scan.current) = 32 && column?.all ((← Scan.mark).column < ·) then
      Scan.skip
      Scan.need 1
      indentation column? n

/-- Takes empty lines; gives the widest indentation too. -/
def emptyLines (start : Mark) (column? : Option Nat) :
    (steps : Nat) → (widest : Nat) → (breaks : List Nat) → Scan (Nat × List Nat)
  | 0, widest, breaks => return (widest, breaks)
  | n + 1, widest, breaks => do
    Scan.need 1
    indentation column? (← Scan.bound)
    let column := (← Scan.mark).column
    let code ← Scan.current
    if code = 9 && column?.all (column < ·) then
      Scan.fail start "found a tab character where an indentation space is expected"
    if isBreak code then
      Scan.need 2
      let codes ← Scan.takeBreak
      emptyLines start column? n (max widest column) (breaks ++ codes)
    else return (max widest column, breaks)

/-- The lines so far, and the breaks behind them. -/
structure Content where
  read : List Nat := []
  leading : List Nat := []
  trailing : List Nat := []
  isIndented : Bool := false

namespace Content

/-- The content in front of another line, which may be indented further. Folding turns a line break
between two lines that are not into a blank, or into nothing if empty lines follow. -/
def joined (c : Content) (isFolded isIndented : Bool) : List Nat :=
  let folds := isFolded && !c.isIndented && !isIndented && c.leading = [10]
  let leading := if !folds then c.leading else if c.trailing.isEmpty then [32] else []
  c.trailing.reverse ++ leading.reverse ++ c.read

/-- The content with the breaks that count at its end. -/
def chomped (c : Content) : Chomping → List Nat
  | .strip => c.read
  | .clip => c.leading.reverse ++ c.read
  | .keep => c.trailing.reverse ++ c.leading.reverse ++ c.read

end Content

/-- Takes the lines of a block. -/
def content (start : Mark) (isFolded : Bool) (column : Nat) :
    (steps : Nat) → Content → Scan Content
  | 0, c => return c
  | n + 1, c => do
    let code ← Scan.current
    if (← Scan.mark).column ≠ column || code = 0 then return c
    let read ← Scan.takeWhile (fun code => !isLineEnd code) (← Scan.bound)
      (c.joined isFolded (isBlank code))
    Scan.need 2
    let leading ← Scan.takeBreak
    let (_, trailing) ← emptyLines start (some column) (← Scan.bound) 0 []
    content start isFolded column n { read, leading, trailing, isIndented := isBlank code }

def scan (indent : Int) : Scan Token := do
  let start ← Scan.mark
  let isFolded := (← Scan.take) = 62
  let (chomping, columns?) ← header start
  Scan.skipWhile isBlank
  Scan.skipComment
  if !isLineEnd (← Scan.current) then
    Scan.fail start "did not find expected comment or line break"
  Scan.need 2
  Scan.skipBreak
  let column? := columns?.map fun n => n + indent.toNat
  let (widest, trailing) ← emptyLines start column? (← Scan.bound) 0 []
  let column := column?.getD (max widest (max (indent + 1).toNat 1))
  Scan.need 1
  let c ← content start isFolded column (← Scan.bound) { trailing }
  return ⟨.scalar (textOf (c.chomped chomping)) false, start⟩

end Winnow.Yaml.Block
