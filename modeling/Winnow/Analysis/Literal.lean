import Winnow.Analysis.Branch

/-!
# Known values

What is known of the value of an entity at a path.
-/

namespace Winnow.Query

/-- The value of a primitive at a path: itself, or the length of a string. -/
def literalAt (value : Value) (path : Path) : Value :=
  match path, value with
  | [], v => v
  | [key], .string s =>
    if key = utf8 "length" then .number (Float.ofNat (Utf8.length16 s)) else .unknown
  | _, _ => .unknown

def objectAt (path : Path) : Value := if path.isEmpty then .truthy else .unknown

def unaryValue (op : UnaryOp) (v : Value) : Value :=
  match op with
  | .void => .undefined
  | .not => match v.truth? with
    | some t => .bool !t
    | none => .unknown
  | .minus => if v.isUnknown then .unknown else .number (-v.toNumber)
  | .plus => if v.isUnknown then .unknown else .number v.toNumber
  | .typeof => if v.isUnknown then .unknown else .string v.typeName

def literalOfVar (q : Queries) (id : VarId) (v : Variable) (path : Path)
    (origin : Option Origin) : Query Value :=
  match v.form with
  | .declared .. =>
    match v.knownInit? with
    | none => return .unknown
    | some init => tracked (.var id) path .unknown do
      addVarDependent id origin
      q.literal (.node init) path origin
  | .global => return if path.isEmpty then Globals.value v.name else .unknown
  | .moduleNamespace _ =>
    return if path.head? = some Key.toStringTag then .string (utf8 "Module") else .unknown
  | .receiver _ | .external .. => return .unknown

def literalOfExpr (q : Queries) (e : Expr) (path : Path) (origin : Option Origin) :
    Query Value := do
  match e with
  | .ident i => q.literal (← nameTarget i.info.id) path origin
  | .receiver i _ => q.literal (← receiverTarget i.id) path origin
  | .literal _ value _ => return literalAt value path
  | .object i ps =>
    match path with
    | [] => return .truthy
    | key :: rest =>
      match ← knownProperty? i.id ps key with
      | none => return .unknown
      | some p => tracked (.node i.id) path .unknown do
        addKeyDependent i.id key origin
        q.literal p.value.entity rest origin
  | .member i object name =>
    match ← memberTarget? i.id with
    | some target => q.literal target path origin
    | none => q.literal object.entity (name :: path) origin
  | .index i object key =>
    match ← memberTarget? i.id with
    | some target => q.literal target path origin
    | none => q.literal object.entity (indexKey key :: path) origin
  | .call i isNew callee arguments =>
    let result ← returnOf q i isNew callee arguments
    if result = .unknown then return .unknown
    tracked result path .unknown do
      addDependent i.id origin
      q.literal result path origin
  | .unary _ op argument =>
    if !path.isEmpty then return .unknown
    if op = .void then return .undefined
    return unaryValue op (← q.literal argument.entity [] origin)
  | .binary _ op left right =>
    if !path.isEmpty then return .unknown
    let a ← q.literal left.entity [] origin
    if a.isUnknown then return .unknown
    let b ← q.literal right.entity [] origin
    if b.isUnknown then return .unknown
    return Value.fold op a b
  | .logical i op left right =>
    match ← usedOperand q i op left right with
    | none => return .unknown
    | some used =>
      addDependent i.id origin
      q.literal used.entity path origin
  | .conditional i test consequent alternate =>
    match ← usedBranch q i test consequent alternate with
    | none => return .unknown
    | some used =>
      addDependent i.id origin
      q.literal used.entity path origin
  | .assign .. => return .unknown
  | .function _ | .classDef _ => return objectAt path

def literal (q : Queries) (e : Entity) (path : Path) (origin : Option Origin) : Query Value := do
  match e with
  | .unknown | .fresh _ | .union _ => return .unknown
  | .undefined => return literalAt .undefined path
  | .var id =>
    match (← get).var? id with
    | some v => literalOfVar q id v path origin
    | none => return .unknown
  | .node id =>
    match (← get).node? id with
    | some (.expr x) => literalOfExpr q x path origin
    | some (.binder b) => q.literal (.var b.var) path origin
    | _ => return .unknown

end Winnow.Query
