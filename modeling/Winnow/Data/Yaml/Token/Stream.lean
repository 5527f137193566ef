import Winnow.Data.Yaml.Token.Block
import Winnow.Data.Yaml.Token.Label
import Winnow.Data.Yaml.Token.Plain
import Winnow.Data.Yaml.Token.Quoted

/-!
# The stream of tokens

Tokens wait in a queue, since only the colon behind a key shows that it is one: the tokens that mark
it, and a mapping that starts with it, are put in front of what is already there. A key stands on
one line, and its colon at most 1024 characters behind its start. Between brackets there is no
indentation, and each pair of brackets has a key of its own.
-/

namespace Winnow.Yaml

/-- Where a key may have begun. -/
structure KeyStart where
  isPossible : Bool := false
  isRequired : Bool := false
  token : Nat := 0
  mark : Mark := {}
  deriving Inhabited

/-- What is left to read, and the tokens that wait. -/
structure Stream where
  cursor : Cursor
  queue : List Token := []
  taken : Nat := 0
  isReady : Bool := false
  isStarted : Bool := false
  indent : Int := -1
  indents : List Int := []
  depth : Nat := 0
  allowsKey : Bool := false
  keys : List KeyStart := []
  keyTokens : List (Nat × Nat) := []

abbrev Tokens := StateT Stream (Except Fault)

namespace Tokens

def maxDepth : Nat := 10000

def scan {α : Type} (action : Scan α) : Tokens α := do
  let s ← get
  let (a, cursor) ← action.run s.cursor
  set { s with cursor }
  return a

def mark : Tokens Mark := return (← get).cursor.mark

def inFlow : Tokens Bool := return (← get).depth > 0

def nextNumber : Tokens Nat := do
  let s ← get
  return s.taken + s.queue.length

def push (t : Token) : Tokens Unit := modify fun s => { s with queue := s.queue ++ [t] }

def insert (number : Nat) (t : Token) : Tokens Unit := modify fun s =>
  if number < s.taken then { s with queue := s.queue ++ [t] }
  else
    let i := number - s.taken
    { s with queue := s.queue.take i ++ t :: s.queue.drop i }

def failKey {α : Type} (start : Mark) : Tokens α :=
  scan (Scan.fail start "could not find expected ':'")

def keyStart : Tokens KeyStart := return (← get).keys.headD {}

def setKeyStart (k : KeyStart) : Tokens Unit :=
  modify fun s => { s with keys := k :: s.keys.tail }

def forgetToken (number : Nat) : Tokens Unit :=
  modify fun s => { s with keyTokens := s.keyTokens.filter fun (n, _) => n ≠ number }

/-- Whether a key can still end here. -/
def isInReach (k : KeyStart) : Tokens Bool := do
  let here ← mark
  if !k.isPossible then return false
  else if k.mark.line < here.line || k.mark.index + 1024 < here.index then
    if k.isRequired then failKey k.mark
    return false
  else return true

/-- Gives up the key that may have begun. -/
def removeKey : Tokens Unit := do
  let k ← keyStart
  if k.isPossible then
    if k.isRequired then failKey k.mark
    setKeyStart { k with isPossible := false }
    forgetToken k.token

/-- Notes that a key may begin here. -/
def saveKey : Tokens Unit := do
  let s ← get
  if s.allowsKey then
    let here := s.cursor.mark
    let isRequired := s.depth = 0 && s.indent = here.column
    let token ← nextNumber
    removeKey
    setKeyStart { isPossible := true, isRequired, token, mark := here }
    modify fun s =>
      { s with keyTokens := (token, s.depth) :: s.keyTokens.filter fun (n, _) => n ≠ token }

def allowKey (allows : Bool) : Tokens Unit := modify fun s => { s with allowsKey := allows }

/-- Opens a collection by indentation. -/
def indentTo (column : Nat) (number? : Option Nat) (t : Token) : Tokens Unit := do
  let s ← get
  if s.depth = 0 && s.indent < column then
    set { s with indent := (column : Int), indents := s.indent :: s.indents }
    if s.indents.length + 1 > maxDepth then
      scan (Scan.fail (s.keys.headD {}).mark s!"exceeded max depth of {maxDepth}")
    match number? with
    | some number => insert number t
    | none => push t

def closeTo (start : Mark) (column : Int) : (indents : List Int) → Tokens Unit
  | [] => return
  | outer :: indents => do
    if column < (← get).indent then
      push ⟨.blockEnd, start⟩
      modify fun s => { s with indent := outer, indents }
      closeTo start column indents

/-- Closes the collections of deeper lines. -/
def dedentTo (start : Mark) (column : Int) : Tokens Unit := do
  let s ← get
  if s.depth = 0 then closeTo start column s.indents

def openBracket : Tokens Unit := do
  let here ← mark
  let token ← nextNumber
  modify fun s => { s with keys := { token, mark := here } :: s.keys, depth := s.depth + 1 }
  if (← get).depth > maxDepth then
    scan (Scan.fail here s!"exceeded max depth of {maxDepth}")

def closeBracket : Tokens Unit := do
  let s ← get
  if s.depth > 0 then
    forgetToken (← keyStart).token
    modify fun s => { s with keys := s.keys.tail, depth := s.depth - 1 }

/-- Skips to the end of the line of a place. -/
def skipThrough : (steps : Nat) → (target : Nat) → Scan Unit
  | 0, _ => return
  | n + 1, target => do
    Scan.need 1
    let isPast := target ≤ (← Scan.mark).index
    if isLineEnd (← Scan.current) then
      if isPast then return
      Scan.need 2
      Scan.skipBreak
    else Scan.skip
    skipThrough n target

def commentAhead? : (steps : Nat) → (place : Nat) → Scan (Option Nat)
  | 0, _ => return none
  | n + 1, place => do
    if !(← Scan.reaches (place + 1)) then return none
    let code ← Scan.ahead place
    if code = 35 then return some place
    else if isBlank code || code = 10 || code = 13 then commentAhead? n (place + 1)
    else return none

def commentReach : Nat := 511

def skipComments : (steps : Nat) → (place : Nat) → Scan Unit
  | 0, _ => return
  | n + 1, place => do
    skipThrough (← Scan.bound) ((← Scan.mark).index + place)
    match ← commentAhead? commentReach 1 with
    | some place => skipComments n place
    | none => return

def commentOnLine? : (steps : Nat) → (place : Nat) → Scan (Option Nat)
  | 0, _ => return none
  | n + 1, place => do
    if !(← Scan.reaches (place + 1)) then return none
    let code ← Scan.ahead place
    if isBlank code then commentOnLine? n (place + 1)
    else return if code = 35 then some place else none

def lineComment : Scan Unit := do
  if (← get).onFreshLine then return
  match ← commentOnLine? (commentReach + 1) 0 with
  | some place => skipThrough (← Scan.bound) ((← Scan.mark).index + place)
  | none => return

def skipBlanks (withTabs : Bool) : Scan Unit := do
  Scan.need 1
  Scan.skipWhile fun code => code = 32 || (withTabs && code = 9)

/-- Skips what stands before a token. -/
def toToken : (steps : Nat) → Tokens Unit
  | 0 => return
  | n + 1 => do
    scan (Scan.need 1)
    let s ← get
    if s.cursor.mark.column = 0 && s.cursor.atByteOrderMark then scan Scan.skip
    scan (skipBlanks (s.depth > 0 || !s.allowsKey))
    if (← scan Scan.current) = 35 then scan do skipComments (← Scan.bound) 0
    if isBreak (← scan Scan.current) then
      scan (Scan.need 2)
      scan Scan.skipBreak
      if s.depth = 0 then allowKey true
      toToken n

def pushMark (kind : TokenKind) (characters : Nat) : Tokens Unit := do
  let start ← mark
  for _ in [0:characters] do scan Scan.skip
  push ⟨kind, start⟩

def streamStart : Tokens Unit := do
  modify fun s => { s with isStarted := true, allowsKey := true, keys := [{}] }
  push ⟨.streamStart, ← mark⟩

def streamEnd : Tokens Unit := do
  let here ← mark
  if here.column ≠ 0 then
    let line := { here with line := here.line + 1, column := 0 }
    modify fun s => { s with cursor := { s.cursor with mark := line } }
  dedentTo (← mark) (-1)
  removeKey
  allowKey false
  push ⟨.streamEnd, ← mark⟩

def endDocument : Tokens Unit := do
  dedentTo (← mark) (-1)
  removeKey
  allowKey false

def flowStart (kind : TokenKind) : Tokens Unit := do
  saveKey
  openBracket
  allowKey true
  pushMark kind 1

def flowEnd (kind : TokenKind) : Tokens Unit := do
  removeKey
  closeBracket
  allowKey false
  pushMark kind 1

def flowEntry : Tokens Unit := do
  removeKey
  allowKey true
  pushMark .flowEntry 1

def blockEntry : Tokens Unit := do
  let here ← mark
  if !(← inFlow) then
    if !(← get).allowsKey then
      scan (Scan.failHere "block sequence entries are not allowed in this context")
    indentTo here.column none ⟨.blockSequence, here⟩
  removeKey
  allowKey true
  pushMark .blockEntry 1

def explicitKey : Tokens Unit := do
  let here ← mark
  if !(← inFlow) then
    if !(← get).allowsKey then
      scan (Scan.failHere "mapping keys are not allowed in this context")
    indentTo here.column none ⟨.blockMapping, here⟩
  removeKey
  allowKey (!(← inFlow))
  pushMark .key 1

/-- The colon behind a key. -/
def value : Tokens Unit := do
  let k ← keyStart
  if ← isInReach k then
    insert k.token ⟨.key, k.mark⟩
    indentTo k.mark.column (some k.token) ⟨.blockMapping, k.mark⟩
    setKeyStart { k with isPossible := false }
    forgetToken k.token
    allowKey false
  else
    setKeyStart { k with isPossible := false }
    let here ← mark
    if !(← inFlow) then
      if !(← get).allowsKey then
        scan (Scan.failHere "mapping values are not allowed in this context")
      indentTo here.column none ⟨.blockMapping, here⟩
    allowKey (!(← inFlow))
  pushMark .value 1

def content (action : Scan Token) : Tokens Unit := do
  saveKey
  allowKey false
  push (← scan action)

def plain : Tokens Unit := do
  saveKey
  allowKey false
  let s ← get
  let (t, isBroken) ← scan (Plain.scan (s.depth > 0) s.indent)
  push t
  if isBroken then allowKey true

def block : Tokens Unit := do
  removeKey
  allowKey true
  push (← scan (Block.scan (← get).indent))

def startsPlain (inFlow : Bool) (code following : Nat) : Bool :=
  !(isWordEnd code || isOneOf "-?:,[]\x7b\x7d#&*!|>'\"%@`" code) ||
    (code = 45 && !isBlank following) ||
    (!inFlow && (code = 63 || code = 58) && !isWordEnd following)

/-- The token its first characters ask for. -/
def ordinary : Tokens Unit := do
  let inFlow ← inFlow
  let code ← scan Scan.current
  let following ← scan (Scan.ahead 1)
  if code = 91 then flowStart .flowSequence
  else if code = 123 then flowStart .flowMapping
  else if code = 93 then flowEnd .flowSequenceEnd
  else if code = 125 then flowEnd .flowMappingEnd
  else if code = 44 then flowEntry
  else if code = 45 && isWordEnd following then blockEntry
  else if code = 63 && (inFlow || isWordEnd following) then explicitKey
  else if code = 58 && (inFlow || isWordEnd following) then value
  else if code = 42 || code = 38 then content Label.anchorOrAlias
  else if code = 33 then content Label.tag
  else if (code = 124 || code = 62) && !inFlow then block
  else if code = 39 || code = 34 then content Quoted.scan
  else if startsPlain inFlow code following then plain
  else scan (Scan.failHere "found character that cannot start any token")

/-- Takes a token, whatever it is. -/
def fetch : Tokens Unit := do
  scan (Scan.need 1)
  if !(← get).isStarted then streamStart
  else
    let before ← mark
    toToken (← get).cursor.size.succ
    dedentTo before (← mark).column
    scan (Scan.need 4)
    let c := (← get).cursor
    if c.current = 0 then streamEnd
    else if c.mark.column = 0 && c.current = 37 then
      endDocument
      push (← scan Label.directive)
    else if c.atMarker then
      endDocument
      pushMark (if c.current = 45 then .documentStart else .documentEnd) 3
    else
      ordinary
      if ((← get).queue.getLast?).all (·.kind ≠ .blockEntry) then scan lineComment

/-- Whether the first token in the queue may begin a key. -/
def mayBeKey : Tokens Bool := do
  let s ← get
  match s.keyTokens.lookup s.taken with
  | none => return false
  | some depth =>
    match s.keys.reverse[depth]? with
    | some k => isInReach k
    | none => return false

/-- Fetches until the first token is settled. -/
def prepare : (steps : Nat) → Tokens Unit
  | 0 => return
  | n + 1 => do
    if (← get).queue.length > 2 && !(← mayBeKey) then return
    fetch
    prepare n

def peek : Tokens Token := do
  if !(← get).isReady then
    prepare ((← get).cursor.size + 8)
    modify fun s => { s with isReady := true }
  return (← get).queue.headD ⟨.streamEnd, ← mark⟩

def next : Tokens Unit :=
  modify fun s => { s with queue := s.queue.tail, taken := s.taken + 1, isReady := false }

end Tokens

end Winnow.Yaml
