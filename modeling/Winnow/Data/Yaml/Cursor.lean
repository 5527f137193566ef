import Winnow.Data.Yaml.Fault

/-!
# Moving through a YAML text

A cursor stands at a character of a text and knows its place, since lines and columns are what
structure the text. Characters are loaded when they are asked for (`Scan.need`), and only then a
fault among them shows. Loops count their steps; each of them passes a character.
-/

namespace Winnow.Yaml

/-- What is left of a text, and the place reached. -/
structure Cursor where
  rest : List Nat
  loaded : Nat := 0
  pending : List Nat := []
  fault? : Option EncodingFault := none
  atByteOrderMark : Bool := false
  mark : Mark := {}
  onFreshLine : Bool := false
  size : Nat

namespace Cursor

def ofSource (source : Source) : Cursor :=
  { rest := source.codes, pending := source.blocks, fault? := source.fault?
    size := source.codes.length }

/-- Loads blocks until there are enough characters. -/
def loadBlocks (n : Nat) : (loaded : Nat) → (pending : List Nat) → Nat × List Nat
  | loaded, [] => (loaded, [])
  | loaded, block :: pending =>
    if loaded < n then loadBlocks n (loaded + block) pending else (loaded, block :: pending)

def load (c : Cursor) (n : Nat) : Except Fault Cursor :=
  let atByteOrderMark := c.rest.head? = some 0xFEFF
  match loadBlocks n c.loaded c.pending, c.fault? with
  | (loaded, pending), none =>
    .ok { c with loaded := if loaded < n then loaded + 1 else loaded, pending, atByteOrderMark }
  | (loaded, pending), some fault =>
    if loaded < n then .error (.encoding fault)
    else .ok { c with loaded, pending, atByteOrderMark }

def ahead (c : Cursor) (n : Nat) : Nat := (c.rest.drop n).headD 0

def current (c : Cursor) : Nat := c.rest.headD 0

def next (c : Cursor) : Cursor :=
  { c with
    rest := c.rest.tail
    loaded := c.loaded - 1
    mark := { c.mark with index := c.mark.index + 1, column := c.mark.column + 1 }
    onFreshLine := c.onFreshLine && isBlank c.current }

def nextLine (c : Cursor) (n : Nat) : Cursor :=
  { c with
    rest := c.rest.drop n
    loaded := c.loaded - n
    mark := { index := c.mark.index + n, line := c.mark.line + 1, column := 0 }
    onFreshLine := true }

/-- Whether a mark between documents stands here. -/
def atMarker (c : Cursor) : Bool :=
  let isThrice (code : Nat) : Bool := c.current = code && c.ahead 1 = code && c.ahead 2 = code
  c.mark.column = 0 && (isThrice 45 || isThrice 46) && isWordEnd (c.ahead 3)

end Cursor

abbrev Scan := StateT Cursor (Except Fault)

namespace Scan

/-- Loads as many characters. -/
def need (n : Nat) : Scan Unit := do
  let c ← get
  if c.loaded < n then set (← c.load n)

/-- Whether so many characters can be loaded. -/
def reaches (n : Nat) : Scan Bool := do
  let c ← get
  if n ≤ c.loaded then return true
  else match c.load n with
    | .ok c => do
      set c
      return true
    | .error _ => return false

def current : Scan Nat := return (← get).current

def ahead (n : Nat) : Scan Nat := return (← get).ahead n

def mark : Scan Mark := return (← get).mark

def bound : Scan Nat := return (← get).size + 1

def skip : Scan Unit := modify Cursor.next

def take : Scan Nat := do
  let c ← get
  set c.next
  return c.current

/-- Takes a line break, as a single character. -/
def takeBreak : Scan (List Nat) := do
  let c ← get
  if c.current = 13 && c.ahead 1 = 10 then
    set (c.nextLine 2)
    return [10]
  else if isBreak c.current then
    set (c.nextLine 1)
    return [if c.current = 0x2028 || c.current = 0x2029 then c.current else 10]
  else return []

def skipBreak : Scan Unit := discard takeBreak

/-- A fault in a construct that began at a mark. -/
def fail {α : Type} (start : Mark) (problem : String) : Scan α := do
  throw (.token start.line (← mark).line problem)

def failHere {α : Type} (problem : String) : Scan α := fail {} problem

/-- Takes characters, the last one first. -/
def takeWhile (p : Nat → Bool) : (steps : Nat) → (read : List Nat) → Scan (List Nat)
  | 0, read => return read
  | n + 1, read => do
    if p (← current) then
      let code ← take
      need 1
      takeWhile p n (code :: read)
    else return read

def skipWhile (p : Nat → Bool) : Scan Unit := do
  need 1
  discard (takeWhile p (← bound) [])

def skipComment : Scan Unit := do
  if (← current) = 35 then skipWhile fun code => !isLineEnd code

end Scan

def textOf (read : List Nat) : Bytes := read.reverse.flatMap Bytes.ofCode

end Winnow.Yaml
