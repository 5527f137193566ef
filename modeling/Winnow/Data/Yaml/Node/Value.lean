import Winnow.Data.Base64
import Winnow.Data.Yaml.Node
import Winnow.Number.Shortest

/-!
# From trees to data

A merge key brings in the entries of other mappings, as far as their keys are new. Values of the
wrong type and keys that are set twice are collected. The parts that are only there because of
aliases are counted, and a document that consists of little else is refused.
-/

namespace Winnow.Yaml

structure Tally where
  nodes : Nat := 0
  aliased : Nat := 0
  faults : List Bytes := []

abbrev Valuation := StateT Tally (Except Fault)

namespace Valuation

def allowedRatio (nodes : Nat) : Float :=
  if nodes ≤ 400000 then 0.99
  else if 4000000 ≤ nodes then 0.1
  else 0.99 - 0.89 * ((nodes - 400000).toFloat / 3600000)

def count (inAlias : Bool) : Valuation Unit := do
  let t ← get
  let nodes := t.nodes + 1
  let aliased := if inAlias then t.aliased + 1 else t.aliased
  if aliased > 100 && nodes > 1000 && aliased.toFloat / nodes.toFloat > allowedRatio nodes then
    throw .tooManyAliases
  set { t with nodes, aliased }

def note (message : Bytes) : Valuation Unit :=
  modify fun t => { t with faults := message :: t.faults }

def excerpt (s : Bytes) : Bytes :=
  utf8 " `" ++ (if s.length > 10 then s.take 7 ++ utf8 "..." else s) ++ utf8 "`"

def noteType (n : Node) (expected : String) : Valuation Unit :=
  let isCollection := n.tag = utf8 "!!seq" || n.tag = utf8 "!!map"
  note (utf8 "line " ++ Bytes.ofNat n.line ++ utf8 ": cannot unmarshal " ++ n.tag ++
    (if isCollection then [] else excerpt n.keyText) ++ utf8 " into " ++ utf8 expected)

def typeTags : List Bytes := ["!!bool", "!!int", "!!float", "!!null", "!!timestamp"].map utf8

def scalar (tag text : Bytes) : Except Fault Datum :=
  if tag = utf8 "!!binary" then
    match Base64.decode? text with
    | some s => .ok (.text s)
    | none => .error .badBase64
  else if !typeTags.contains tag then .ok (.text text)
  else
    let d := resolveAs (tag = utf8 "!!timestamp") text
    if tagOf d = tag then .ok d
    else match d with
      | .int n =>
        if tag = utf8 "!!float" && n < Nat.pow 2 63 then .ok (.real (Float.ofInt n))
        else .error (.mistagged (tagOf d) text tag)
      | d => .error (.mistagged (tagOf d) text tag)

def scalarKey (tag text : Bytes) : Except Fault (Option Bytes) := do
  match ← scalar tag text with
  | .null => return none
  | .text s => return some s
  | _ => return some text

def isSame : Datum → Datum → Bool
  | .null, .null => true
  | .bool a, .bool b => a = b
  | .int a, .int b => a = b
  | .real a, .real b => a == b
  | .text a, .text b => a = b
  | .time _ a, .time _ b => a = b
  | _, _ => false

def nameOf : Datum → Bytes
  | .bool b => utf8 (if b then "true" else "false")
  | .int n => Bytes.ofInt n
  | .real x => Number.formatPositional x
  | .text s | .time _ s => s
  | _ => []

def hasTextKeys (entries : List (Node × Node)) : Bool :=
  entries.all fun (k, _) => k.tag = utf8 "!!str" || k.tag = utf8 "!!merge"

def repetitions (k : Node) (entries : List (Node × Node)) : List Bytes :=
  (entries.filter fun (other, _) => k.isSameKey other).map fun (other, _) =>
    utf8 "line " ++ Bytes.ofNat other.line ++ utf8 ": mapping key " ++ Text.quoted k.keyText ++
      utf8 " already defined at line " ++ Bytes.ofNat k.line

def duplicates : List (Node × Node) → List Bytes
  | [] => []
  | (k, _) :: entries => repetitions k entries ++ duplicates entries

def hasUniqueKeys (entries : List (Node × Node)) : Valuation Bool := do
  let messages := duplicates entries
  messages.forM note
  return messages.isEmpty

structure Filling where
  isGeneral : Bool
  fields : List (Datum × Datum) := []
  seen? : Option (List Datum) := none

namespace Filling

def hasSeen (f : Filling) (key : Datum) : Bool := (f.seen?.getD []).any (isSame key)

def see (f : Filling) (key : Datum) : Filling := { f with seen? := f.seen?.map (key :: ·) }

def set (f : Filling) (key d : Datum) : Filling :=
  { f with fields := f.fields.filter (fun (k, _) => !isSame key k) ++ [(key, d)] }

def readyToMerge (f : Filling) (entries : List (Node × Node)) (keys : Valuation (List Datum)) :
    Valuation Filling := do
  if f.seen?.isNone && entries.any (fun (k, _) => k.isMerge) then
    return { f with seen? := some (← keys) }
  else return f

def toFields (f : Filling) : List (Bytes × Datum) := f.fields.map fun (k, d) => (nameOf k, d)

end Filling

def checkKey : Datum → Except Fault Unit
  | .list _ | .record _ => .error .badKey
  | _ => .ok ()

def isMapping : Node → Bool
  | .mapping _ _ _ => true
  | .reference _ _ (.mapping _ _ _) => true
  | .endless _ _ _ isMapping => isMapping
  | _ => false

mutual

def value (inAlias : Bool) : Node → Valuation (Option Datum)
  | .scalar _ tag text => do
    count inAlias
    return some (← scalar tag text)
  | .sequence _ _ items => do
    count inAlias
    return some (.list (← values inAlias items))
  | .mapping _ _ entries => do
    count inAlias
    if !(← hasUniqueKeys entries) then return none
    let f ← fields inAlias entries { isGeneral := !hasTextKeys entries }
    let f ← f.readyToMerge entries (keys inAlias entries)
    return some (.record (← merges inAlias entries f).toFields)
  | .reference _ _ target => do
    count inAlias
    value true target
  | .endless _ name _ _ => throw (.endless name)

def values (inAlias : Bool) : List Node → Valuation (List Datum)
  | [] => return []
  | n :: rest => do
    let d ← value inAlias n
    return d.toList ++ (← values inAlias rest)

def text (inAlias : Bool) : Node → Valuation (Option Bytes)
  | .scalar _ tag text => do
    count inAlias
    scalarKey tag text
  | .sequence line tag _ => do
    count inAlias
    noteType (.sequence line tag []) "string"
    return none
  | .mapping line tag entries => do
    count inAlias
    if ← hasUniqueKeys entries then noteType (.mapping line tag []) "string"
    return none
  | .reference _ _ target => do
    count inAlias
    text true target
  | .endless _ name _ _ => throw (.endless name)

def fields (inAlias : Bool) : List (Node × Node) → Filling → Valuation Filling
  | [], f => return f
  | (k, v) :: rest, f => do
    if k.isMerge then fields inAlias rest f
    else
      let key? ← if f.isGeneral then value inAlias k else do
        pure ((← text inAlias k).map Datum.text)
      match key? with
      | none => fields inAlias rest f
      | some key =>
        if f.hasSeen key then fields inAlias rest f
        else
          checkKey key
          match ← value inAlias v with
          | some d => fields inAlias rest ((f.see key).set key d)
          | none => fields inAlias rest (f.see key)

def keys (inAlias : Bool) : List (Node × Node) → Valuation (List Datum)
  | [] => return []
  | (k, _) :: rest => do
    let key? ← value inAlias k
    return key?.toList ++ (← keys inAlias rest)

def merges (inAlias : Bool) : List (Node × Node) → Filling → Valuation Filling
  | [], f => return f
  | (k, v) :: rest, f => do
    if k.isMerge then merges inAlias rest (← merge inAlias v f)
    else merges inAlias rest f

def merge (inAlias : Bool) : Node → Filling → Valuation Filling
  | .sequence _ _ items, f => mergeAll inAlias items f
  | n, f => if isMapping n then fill inAlias n f else throw .mergesNoMapping

def mergeAll (inAlias : Bool) : List Node → Filling → Valuation Filling
  | [], f => return f
  | n :: rest, f => do
    if !isMapping n then throw .mergesNoMapping
    mergeAll inAlias rest (← fill inAlias n f)

def fill (inAlias : Bool) : Node → Filling → Valuation Filling
  | .mapping _ _ entries, f => do
    count inAlias
    if !(← hasUniqueKeys entries) then return f
    let f ← fields inAlias entries f
    let f ← f.readyToMerge entries (keys inAlias entries)
    merges inAlias entries f
  | .reference _ _ target, f => do
    count inAlias
    fill true target f
  | .endless _ name _ _, _ => throw (.endless name)
  | _, f => return f

end

def root (n : Node) : Valuation (List (Bytes × Datum)) := do
  count false
  match n with
  | .mapping _ _ _ => return (← fill false n { isGeneral := false }).toFields
  | .scalar _ tag text =>
    match ← scalar tag text with
    | .null => return []
    | _ => noteType n "map[string]interface \x7b\x7d"
  | n => noteType n "map[string]interface \x7b\x7d"
  return []

end Valuation

def Node.fields (n : Node) : Except Fault (List (Bytes × Datum)) := do
  let (fields, tally) ← (Valuation.root n).run {}
  if tally.faults.isEmpty then return fields
  else throw (.types tally.faults.reverse)

end Winnow.Yaml
