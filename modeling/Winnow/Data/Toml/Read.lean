import Winnow.Data.Toml.Number
import Winnow.Data.Toml.Table
import Winnow.Data.Toml.Text
import Winnow.Data.Toml.Time

/-!
# Reading TOML

Lines that set a key, and headings that open a table. Each line is set before the next one is read.
-/

namespace Winnow.Toml

/-- The fields that settings in braces make. -/
def inlineFields (settings : List (List Bytes × Datum)) : Except Fault (List (Bytes × Datum)) := do
  discard (settings.foldlM (fun slots (path, _) => Slots.define path slots) [])
  return settings.foldl (fun fields (path, d) => place (fun _ => d) path fields) []

def asText (read : Bytes × Bytes) : Datum × Bytes := (.text read.1, read.2)

mutual

def readValue : (steps : Nat) → Reader Datum
  | 0, _ => .error (.malformed "expected value, not eof")
  | n + 1, s =>
    match s with
    | [] => .error (.malformed "expected value, not eof")
    | 34 :: 34 :: 34 :: t => asText <$> longBasic t
    | 34 :: t => asText <$> basic t
    | 39 :: 39 :: 39 :: t => asText <$> longLiteral t
    | 39 :: t => asText <$> literal t
    | 91 :: t => do
      let (items, rest) ← readItems true n t
      return (.list items, rest)
    | 123 :: t => do
      let (settings, rest) ← readSettings true n t
      return (.record (← inlineFields settings), rest)
    | b :: _ =>
      if b = 116 then
        if s.startsWith (utf8 "true") then .ok (.bool true, s.drop 4)
        else .error (.malformed "expected 'true'")
      else if b = 102 then
        if s.startsWith (utf8 "false") then .ok (.bool false, s.drop 5)
        else .error (.malformed "expected 'false'")
      else if b = 105 && !s.startsWith (utf8 "inf") then .error (.malformed "expected 'inf'")
      else if b = 110 && !s.startsWith (utf8 "nan") then .error (.malformed "expected 'nan'")
      else if startsTime s then time s
      else number s

def readItems (isFirst : Bool) : (steps : Nat) → Reader (List Datum)
  | 0, _ => .error (.malformed "array is incomplete")
  | n + 1, s => do
    if s.isEmpty then throw (.malformed "expected character ] but the document ended here")
    match ← skipAll s with
    | [] => throw (.malformed "array is incomplete")
    | 93 :: rest => return ([], rest)
    | b :: t =>
      if b = 44 && isFirst then throw (.malformed "array cannot start with comma")
      if b ≠ 44 && !isFirst then
        throw (.malformed "array elements must be separated by commas")
      let s ← if b = 44 then skipAll t else pure (b :: t)
      if s.head? = some 93 then return ([], s.drop 1)
      let (d, s) ← readValue n s
      let (items, rest) ← readItems false n (← skipAll s)
      return (d :: items, rest)

def readSettings (isFirst : Bool) : (steps : Nat) → Reader (List (List Bytes × Datum))
  | 0, _ => .error (.malformed "inline table is incomplete")
  | n + 1, s => do
    if s.isEmpty then throw (.malformed "expected character \x7d but the document ended here")
    match skipBlanks s with
    | [] => throw (.malformed "inline table is incomplete")
    | 125 :: rest => return ([], rest)
    | s =>
      let s ← if isFirst then pure s else skipBlanks <$> expect ',' s
      let (setting, s) ← readSetting n s
      let (settings, rest) ← readSettings false n s
      return (setting :: settings, rest)

def readSetting : (steps : Nat) → Reader (List Bytes × Datum)
  | 0, _ => .error (.malformed "expected value, not eof")
  | n + 1, s => do
    let (path, s) ← keyPath s
    if s.isEmpty then throw (.malformed "expected = after a key, but the document ends there")
    let s ← expect '=' s
    let (d, rest) ← readValue n (skipBlanks s)
    return ((path, d), rest)

end

/-- What the lines so far have made. -/
structure Document where
  fields : List (Bytes × Datum) := []
  slots : Slots := []
  table : List Bytes := []

namespace Document

/-- The slots once a new heading comes. -/
def closed (doc : Document) : Except Fault Slots :=
  doc.slots.changeAt (fun slots => .ok slots.close) doc.table

/-- Opens the table of a heading. -/
def openTable (doc : Document) (path : List Bytes) : Except Fault Document := do
  let slots ← (← doc.closed).changeAt (Slots.openTable (path.getLastD [])) path.dropLast
  return { fields := place recordOr path doc.fields, slots, table := path }

/-- Adds a table to a list of them. -/
def openTables (doc : Document) (path : List Bytes) : Except Fault Document := do
  let slots ← (← doc.closed).changeAt (Slots.openTables (path.getLastD [])) path.dropLast
  return { fields := place withRecord path doc.fields, slots, table := path }

/-- Sets a key in the open table. -/
def set (doc : Document) (path : List Bytes) (d : Datum) : Except Fault Document := do
  let slots ← doc.slots.changeAt (Slots.define path) doc.table
  return { doc with fields := place (fun _ => d) (doc.table ++ path) doc.fields, slots }

def heading (doc : Document) : Bytes → Except Fault (Document × Bytes)
  | 91 :: 91 :: s => do
    let (path, s) ← keyPath (skipBlanks s)
    let s ← expect ']' s
    let s ← expect ']' s
    return (← doc.openTables path, s)
  | s => do
    let (path, s) ← keyPath (skipBlanks (s.drop 1))
    let s ← expect ']' s
    return (← doc.openTable path, s)

/-- Takes line after line. -/
def lines : (steps : Nat) → Document → Bytes → Except Fault Document
  | 0, doc, _ => .ok doc
  | n + 1, doc, s =>
    match skipBlanks s with
    | [] => .ok doc
    | b :: t =>
      if b = 35 || isLineEnd b then do lines n doc (← lineEnd (← skipComment (b :: t)))
      else do
        let (doc, rest) ←
          if b = 91 then doc.heading (b :: t)
          else do
            let ((path, d), rest) ← readSetting (3 * (t.length + 2)) (b :: t)
            pure (← doc.set path d, rest)
        lines n doc (← lineEnd (← skipComment (skipBlanks rest)))

end Document

def read (s : Bytes) : Except Fault (List (Bytes × Datum)) := do
  return (← Document.lines (s.length + 1) {} s).fields

end Winnow.Toml
