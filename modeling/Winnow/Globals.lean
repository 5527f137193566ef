import Winnow.Access.Path
import Winnow.Value

/-!
# Known globals

Which reads, calls and constructions of the globals of the language have no effect. A chain that
leads to no entry is never free of effects.
-/

namespace Winnow

inductive GlobalKind where
  | value
  | function
  | constructor
  | group
  deriving DecidableEq, Repr

def GlobalKind.text : GlobalKind → String
  | value => "value"
  | function => "function"
  | constructor => "constructor"
  | group => "namespace"

structure Global where
  name : Bytes
  kind : GlobalKind
  pureCall : Bool := false
  pureConstruct : Bool := false
  deriving DecidableEq, Repr

namespace Globals

def values (names : List String) : List Global := names.map fun n => ⟨utf8 n, .value, false, false⟩

def pure (names : List String) : List Global := names.map fun n => ⟨utf8 n, .function, true, false⟩

def impure (names : List String) : List Global :=
  names.map fun n => ⟨utf8 n, .function, false, false⟩

def classes (names : List String) : List Global :=
  names.map fun n => ⟨utf8 n, .constructor, true, true⟩

def alone (globals : List Global) : List (Global × List Global) := globals.map fun g => (g, [])

def table : List (Global × List Global) :=
  alone (values ["undefined", "NaN", "Infinity", "globalThis"]) ++
  alone (pure ["decodeURI", "decodeURIComponent", "encodeURI", "encodeURIComponent", "escape",
    "unescape", "isFinite", "isNaN", "parseFloat", "parseInt"]) ++
  alone (impure ["eval", "setTimeout", "clearTimeout", "setInterval", "clearInterval",
    "queueMicrotask"]) ++
  alone (classes ["Boolean", "Error", "EvalError", "Function", "Map", "RangeError",
    "ReferenceError", "RegExp", "Set", "SyntaxError", "TypeError", "URIError", "WeakMap",
    "WeakSet", "ArrayBuffer", "DataView", "Float32Array", "Float64Array", "Int8Array",
    "Int16Array", "Int32Array", "Uint8Array", "Uint8ClampedArray", "Uint16Array",
    "Uint32Array"]) ++
  [(⟨utf8 "Array", .constructor, true, true⟩, pure ["isArray", "of", "from"]),
   (⟨utf8 "Date", .constructor, true, true⟩, pure ["now", "parse", "UTC"]),
   (⟨utf8 "Number", .constructor, true, true⟩,
     pure ["isFinite", "isInteger", "isNaN", "isSafeInteger", "parseFloat", "parseInt"] ++
     values ["EPSILON", "MAX_SAFE_INTEGER", "MAX_VALUE", "MIN_SAFE_INTEGER", "MIN_VALUE", "NaN",
       "NEGATIVE_INFINITY", "POSITIVE_INFINITY"]),
   (⟨utf8 "Object", .constructor, true, true⟩,
     pure ["create", "entries", "getOwnPropertyDescriptor", "getOwnPropertyDescriptors",
       "getOwnPropertyNames", "getOwnPropertySymbols", "getPrototypeOf", "is", "isExtensible",
       "isFrozen", "isSealed", "keys", "values"] ++
     impure ["assign", "defineProperty", "defineProperties", "freeze", "preventExtensions", "seal",
       "setPrototypeOf"]),
   (⟨utf8 "String", .constructor, true, true⟩, pure ["fromCharCode", "fromCodePoint", "raw"]),
   (⟨utf8 "Symbol", .function, true, false⟩,
     pure ["for", "keyFor"] ++
     values ["asyncIterator", "hasInstance", "iterator", "toPrimitive", "toStringTag"]),
   (⟨utf8 "BigInt", .function, true, false⟩, []),
   (⟨utf8 "Promise", .constructor, false, false⟩,
     pure ["resolve", "reject", "all", "allSettled", "any", "race"]),
   (⟨utf8 "Proxy", .constructor, false, false⟩, []),
   (⟨utf8 "Math", .group, false, false⟩,
     values ["E", "LN10", "LN2", "LOG10E", "LOG2E", "PI", "SQRT1_2", "SQRT2"] ++
     pure ["abs", "acos", "acosh", "asin", "asinh", "atan", "atan2", "atanh", "cbrt", "ceil",
       "clz32", "cos", "cosh", "exp", "expm1", "floor", "fround", "hypot", "imul", "log", "log10",
       "log1p", "log2", "max", "min", "pow", "random", "round", "sign", "sin", "sinh", "sqrt",
       "tan", "tanh", "trunc"]),
   (⟨utf8 "JSON", .group, false, false⟩, pure ["parse", "stringify"]),
   (⟨utf8 "Reflect", .group, false, false⟩,
     pure ["getOwnPropertyDescriptor", "getPrototypeOf", "has", "isExtensible", "ownKeys"] ++
     impure ["apply", "construct", "defineProperty", "deleteProperty", "get", "set",
       "setPrototypeOf", "preventExtensions"]),
   (⟨utf8 "console", .group, false, false⟩,
     impure ["log", "info", "warn", "error", "debug", "trace", "table", "assert"])]

def find? (name : Bytes) : Option (Global × List Global) := table.find? fun g => g.1.name = name

def isKnown (name : Bytes) : Bool := (find? name).isSome

def lookup? : List Bytes → Option (Global × List Global)
  | [name] => find? name
  | [name, member] =>
    match find? name with
    | some (_, members) => (members.find? fun g => g.name = member).map fun g => (g, [])
    | none => none
  | _ => none

def isPureAccess (keys : List Bytes) : Bool := (lookup? keys).isSome

def isPureCall (keys : List Bytes) : Bool :=
  match lookup? keys with
  | some (g, _) => g.pureCall
  | none => false

def isPureConstruct (keys : List Bytes) : Bool :=
  match lookup? keys with
  | some (g, _) => g.pureConstruct
  | none => false

def constant? (name : Bytes) : Option Float :=
  if name = utf8 "NaN" then some Number.nan
  else if name = utf8 "Infinity" then some Number.infinity
  else none

def value (name : Bytes) : Value :=
  if name = utf8 "undefined" then .undefined
  else match constant? name with
    | some x => .number x
    | none => if isKnown name then .truthy else .unknown

end Globals

end Winnow
