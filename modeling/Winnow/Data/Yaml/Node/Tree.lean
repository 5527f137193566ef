import Winnow.Data.Yaml.Node
import Winnow.Data.Yaml.Token.Stream

/-!
# From tokens to trees

Each reader below takes the tokens of one construct. It counts its steps; each of them takes a token
or goes into a part, so a multiple of the size of the text is enough.
-/

namespace Winnow.Yaml

inductive Anchored where
  | complete (node : Node)
  | incomplete (number : Nat) (tag : Bytes) (isMapping : Bool)

structure Draft where
  stream : Stream
  handles : List (Bytes × Bytes) := []
  anchors : List (Bytes × Anchored) := []

abbrev Parts := StateT Draft (Except Fault)

namespace Parts

def peek : Parts Token := do
  let d ← get
  let (t, stream) ← Tokens.peek.run d.stream
  set { d with stream }
  return t

def next : Parts Unit := do
  let d ← get
  let ((), stream) ← Tokens.next.run d.stream
  set { d with stream }

def fail {α : Type} (start : Mark) (t : Token) (problem : String) : Parts α :=
  throw (.tree start.line t.start.line problem)

def lineOf (m : Mark) : Nat := m.line + 1

def nothing (m : Mark) : Node := .scalar (lineOf m) (utf8 "!!null") []

def aliasOf (m : Mark) (name : Bytes) : Parts Node := do
  match (← get).anchors.lookup name with
  | none => throw (.unknownAnchor name)
  | some (.complete node) => return .reference (lineOf m) name node
  | some (.incomplete _ tag isMapping) => return .endless (lineOf m) name tag isMapping

def openAnchor (tag : Bytes) (isMapping : Bool) (name : Bytes) : Parts Nat := do
  let d ← get
  let number := d.anchors.length
  set { d with anchors := (name, .incomplete number tag isMapping) :: d.anchors }
  return number

def closeAnchor (node : Node) (number : Nat) : Parts Unit :=
  modify fun d => { d with anchors := d.anchors.map fun (name, a) =>
    match a with
    | .incomplete n _ _ => (name, if n = number then .complete node else a)
    | .complete _ => (name, a) }

structure Properties where
  start : Mark
  anchor? : Option Bytes := none
  tag? : Option (Bytes × Bytes × Mark) := none

def anchor? : Parts (Option Bytes) := do
  match (← peek).kind with
  | .anchor name =>
    next
    return some name
  | _ => return none

def tag? : Parts (Option (Bytes × Bytes × Mark)) := do
  let t ← peek
  match t.kind with
  | .tag handle suffix =>
    next
    return some (handle, suffix, t.start)
  | _ => return none

def properties : Parts Properties := do
  let start := (← peek).start
  match ← anchor? with
  | some name => return { start, anchor? := some name, tag? := ← tag? }
  | none =>
    match ← tag? with
    | some tag => return { start, tag? := some tag, anchor? := ← anchor? }
    | none => return { start }

def Properties.tag (p : Properties) : Parts Bytes := do
  match p.tag? with
  | none => return []
  | some (handle, suffix, m) =>
    if handle.isEmpty then return suffix
    match (← get).handles.lookup handle with
    | some stem => return stem ++ suffix
    | none => throw (.tree p.start.line m.line "found undefined tag handle")

def labelled (p : Properties) (tag : Bytes) (isMapping : Bool) (rest : Parts Node) :
    Parts Node := do
  let number? ← p.anchor?.mapM (openAnchor tag isMapping)
  let node ← rest
  discard (number?.mapM (closeAnchor node))
  return node

def scalar (p : Properties) (tag default text : Bytes) : Parts Node :=
  labelled p tag false (return .scalar (lineOf p.start) (tagOr tag default) text)

def sequence (p : Properties) (said : Bytes) (items : Parts (List Node)) : Parts Node :=
  let tag := tagOr said (utf8 "!!seq")
  labelled p tag false do return .sequence (lineOf p.start) tag (← items)

def mapping (p : Properties) (said : Bytes) (entries : Parts (List (Node × Node))) : Parts Node :=
  let tag := tagOr said (utf8 "!!map")
  labelled p tag true do return .mapping (lineOf p.start) tag (← entries)

def endsBlockPart (kind : TokenKind) : Bool := [.key, .value, .blockEnd].contains kind

def flowToken (start : Mark) (isFirst : Bool) (closing : TokenKind) (problem : String) :
    Parts Token := do
  let t ← peek
  if t.kind = closing || isFirst then return t
  else if t.kind = .flowEntry then
    next
    peek
  else fail start t problem

def unfinished (p : Properties) (tag : Bytes) (t : Token) : Parts Node :=
  if p.anchor?.isSome || !tag.isEmpty then scalar p tag (utf8 "!!null") []
  else fail p.start t "did not find expected node content"

mutual

def node (inBlock inMapping : Bool) : (steps : Nat) → Parts Node
  | 0 => do fail {} (← peek) "did not find expected node content"
  | n + 1 => do
    let first ← peek
    if let .reference name := first.kind then
      let node ← aliasOf first.start name
      next
      return node
    let p ← properties
    let t ← peek
    let tag ← p.tag
    match t.kind with
    | .scalar text isPlain =>
      next
      scalar p tag (scalarTag text isPlain) text
    | .flowSequence => sequence p tag (next *> flowItems t.start true n [])
    | .flowMapping => mapping p tag (next *> flowEntries t.start true n [])
    | .blockEntry =>
      if inMapping then sequence p tag (looseItems n [])
      else unfinished p tag t
    | .blockSequence =>
      if inBlock then sequence p tag (next *> blockItems t.start n [])
      else unfinished p tag t
    | .blockMapping =>
      if inBlock then mapping p tag (next *> blockEntries t.start n [])
      else unfinished p tag t
    | _ => unfinished p tag t

def blockItems (start : Mark) : (steps : Nat) → (read : List Node) → Parts (List Node)
  | 0, _ => do fail start (← peek) "did not find expected '-' indicator"
  | n + 1, read => do
    let t ← peek
    if t.kind = .blockEnd then
      next
      return read.reverse
    else if t.kind = .blockEntry then
      next
      let kind := (← peek).kind
      let item ←
        if kind = .blockEntry || kind = .blockEnd then pure (nothing t.start)
        else node true false n
      blockItems start n (item :: read)
    else fail start t "did not find expected '-' indicator"

def looseItems : (steps : Nat) → (read : List Node) → Parts (List Node)
  | 0, read => return read.reverse
  | n + 1, read => do
    let t ← peek
    if t.kind = .blockEntry then
      next
      let kind := (← peek).kind
      let item ←
        if kind = .blockEntry || endsBlockPart kind then pure (nothing t.start)
        else node true false n
      looseItems n (item :: read)
    else return read.reverse

def blockEntries (start : Mark) :
    (steps : Nat) → (read : List (Node × Node)) → Parts (List (Node × Node))
  | 0, _ => do fail start (← peek) "did not find expected key"
  | n + 1, read => do
    let t ← peek
    if t.kind = .blockEnd then
      next
      return read.reverse
    else if t.kind = .key then
      next
      let key ← if endsBlockPart (← peek).kind then pure (nothing t.start) else node true true n
      let t ← peek
      let value ←
        if t.kind = .value then do
          next
          if endsBlockPart (← peek).kind then pure (nothing t.start) else node true true n
        else pure (nothing t.start)
      blockEntries start n ((key, value) :: read)
    else fail start t "did not find expected key"

def flowItems (start : Mark) (isFirst : Bool) :
    (steps : Nat) → (read : List Node) → Parts (List Node)
  | 0, _ => do fail start (← peek) "did not find expected ',' or ']'"
  | n + 1, read => do
    let t ← flowToken start isFirst .flowSequenceEnd "did not find expected ',' or ']'"
    if t.kind = .flowSequenceEnd then
      next
      return read.reverse
    else
      let item ←
        if t.kind = .key then do
          next
          flowPair t.start n
        else node false false n
      flowItems start false n (item :: read)

def flowPair (start : Mark) : (steps : Nat) → Parts Node
  | 0 => do fail start (← peek) "did not find expected ',' or ']'"
  | n + 1 => do
    let t ← peek
    let key ←
      if [.value, .flowEntry, .flowSequenceEnd].contains t.kind then do
        next
        pure (nothing t.start)
      else node false false n
    let value ← flowValue .flowSequenceEnd n
    discard peek
    return .mapping (lineOf start) (utf8 "!!map") [(key, value)]

def flowValue (closing : TokenKind) : (steps : Nat) → Parts Node
  | 0 => do fail {} (← peek) "did not find expected node content"
  | n + 1 => do
    let t ← peek
    if t.kind = .value then
      next
      let t ← peek
      if t.kind = .flowEntry || t.kind = closing then return nothing t.start
      else node false false n
    else return nothing t.start

def flowEntries (start : Mark) (isFirst : Bool) :
    (steps : Nat) → (read : List (Node × Node)) → Parts (List (Node × Node))
  | 0, _ => do fail start (← peek) "did not find expected ',' or '\x7d'"
  | n + 1, read => do
    let t ← flowToken start isFirst .flowMappingEnd "did not find expected ',' or '\x7d'"
    if t.kind = .flowMappingEnd then
      next
      return read.reverse
    else if t.kind = .key then
      next
      let t ← peek
      let key ←
        if [.value, .flowEntry, .flowMappingEnd].contains t.kind then pure (nothing t.start)
        else node false false n
      let value ← flowValue .flowMappingEnd n
      flowEntries start false n ((key, value) :: read)
    else
      let key ← node false false n
      let t ← peek
      flowEntries start false n ((key, nothing t.start) :: read)

end

def commonHandles : List (Bytes × Bytes) :=
  [(utf8 "!", utf8 "!"), (utf8 "!!", commonStem)]

def directives : (steps : Nat) → (hasVersion : Bool) → Parts Unit
  | 0, _ => return
  | n + 1, hasVersion => do
    let t ← peek
    match t.kind with
    | .version major minor =>
      if hasVersion then fail {} t "found duplicate %YAML directive"
      if major ≠ 1 || minor ≠ 1 then fail {} t "found incompatible YAML document"
      next
      directives n true
    | .tagHandle handle stem =>
      if ((← get).handles.lookup handle).isSome then fail {} t "found duplicate %TAG directive"
      modify fun d => { d with handles := d.handles ++ [(handle, stem)] }
      next
      directives n hasVersion
    | _ => modify fun d => { d with handles := d.handles ++ commonHandles }

def isBound : TokenKind → Bool
  | .version _ _ | .tagHandle _ _ | .documentStart | .documentEnd | .streamEnd => true
  | _ => false

def document (steps : Nat) : Parts (Option Node) := do
  discard peek
  next
  let kind := (← peek).kind
  if kind = .streamEnd then return none
  let isExplicit := isBound kind && kind ≠ .documentEnd
  directives steps false
  let t ← peek
  if isExplicit then
    if t.kind ≠ .documentStart then fail {} t "did not find expected <document start>"
    next
  let t ← peek
  let root ← if isExplicit && isBound t.kind then pure (nothing t.start) else node true false steps
  discard peek
  return some root

end Parts

def Node.ofText? (s : Bytes) : Except Fault (Option Node) :=
  let cursor := Cursor.ofSource (Source.ofText s)
  (Parts.document (16 * (cursor.size + 4))).run' { stream := { cursor } }

end Winnow.Yaml
