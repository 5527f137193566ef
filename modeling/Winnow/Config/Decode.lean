import Winnow.Config.Basic
import Winnow.Config.Settings
import Winnow.Data.Display
import Winnow.Data.Numeral

/-!
# Configurations from data

A value need not have the very type of its setting: texts, numbers and truth values stand for each
other, and a single value for a list of one. Settings nobody knows are passed over.
-/

namespace Winnow

/-- Why a value does not fit a setting. -/
inductive Misfit where
  | notBool (text : Bytes)
  | notInteger (text : Bytes) (fault : Numeral.Fault)
  | wrongKind (expected : String) (value : Datum)
  deriving Repr

/-- The truth value a text stands for. -/
def boolOfText? (s : Bytes) : Option Bool :=
  if (["1", "t", "T", "true", "True", "TRUE"].map utf8).contains s then some true
  else if (["0", "f", "F", "false", "False", "FALSE"].map utf8).contains s then some false
  else none

def notBoolMessage (s : Bytes) : Bytes :=
  utf8 "strconv.ParseBool: parsing " ++ Text.quoted s ++ utf8 ": invalid syntax"

def notIntegerMessage (s : Bytes) (fault : Numeral.Fault) : Bytes :=
  utf8 "strconv.ParseInt: parsing " ++ Text.quoted s ++ utf8 ": " ++ fault.message

/-- A setting whose value does not fit. -/
structure ConfigMisfit where
  setting : Bytes
  misfit : Misfit
  deriving Repr

def ConfigMisfit.message (m : ConfigMisfit) : Bytes :=
  let setting := utf8 "'" ++ m.setting ++ utf8 "'"
  match m.misfit with
  | .notBool s => utf8 "cannot parse " ++ setting ++ utf8 " as bool: " ++ notBoolMessage s
  | .notInteger s fault =>
    utf8 "cannot parse " ++ setting ++ utf8 " as int: " ++ notIntegerMessage s fault
  | .wrongKind expected d =>
    setting ++ utf8 " expected type '" ++ utf8 expected ++ utf8 "', got unconvertible type '" ++
      utf8 d.kindText ++ utf8 "', value: '" ++ d.display ++ utf8 "'"

namespace Config

abbrev Decoder (α : Type) := Datum → Except Misfit α

def decodeBool : Decoder Bool
  | .bool b => .ok b
  | .int n => .ok (n != 0)
  | .real x => .ok (x != 0)
  | .text s =>
    match boolOfText? s with
    | some b => .ok b
    | none => if s.isEmpty then .ok false else .error (.notBool s)
  | d => .error (.wrongKind "bool" d)

/-- The whole part of a number, in 64 bits. -/
def truncate (x : Float) : Int :=
  if x.isNaN || x.toInt64 == Int64.maxValue then Int64.minValue.toInt else x.toInt64.toInt

/-- An integer of 64 bits; one that is too large comes round from the least one. The empty text is
zero. -/
def decodeInteger : Decoder Int
  | .bool b => .ok (if b then 1 else 0)
  | .int n => .ok (Int64.ofInt n).toInt
  | .real x => .ok (truncate x)
  | .text s =>
    if s.isEmpty then .ok 0
    else match Numeral.integer s with
      | .ok n => .ok n
      | .error fault => .error (.notInteger s fault)
  | d => .error (.wrongKind "int" d)

def decodeText : Decoder Bytes
  | .null => .ok []
  | .bool b => .ok (utf8 (if b then "1" else "0"))
  | .int n => .ok (Bytes.ofInt n)
  | .real x => .ok (Number.formatPositional x)
  | .text s => .ok s
  | d => .error (.wrongKind "string" d)

/-- A value as a list; commas divide a text. -/
def listItems : Datum → List Datum
  | .text s => if s.isEmpty then [] else (Bytes.splitOn 44 s).map Datum.text
  | .list items => items
  | .record [] => []
  | d => [d]

def misfit? {α : Type} (name : Bytes) : Except Misfit α → List ConfigMisfit
  | .ok _ => []
  | .error misfit => [⟨name, misfit⟩]

/-- The texts of a list, and what is wrong by place. -/
def decodeTexts (name : Bytes) : (place : Nat) → List Datum → List Bytes × List ConfigMisfit
  | _, [] => ([], [])
  | place, d :: rest =>
    let (texts, misfits) := decodeTexts name (place + 1) rest
    let text := decodeText d
    let item := name ++ utf8 "[" ++ Bytes.ofNat place ++ utf8 "]"
    (text.toOption.getD [] :: texts, misfit? item text ++ misfits)

/-- A setting that may be open. -/
def option {α : Type} (decoder : Decoder α) (name : String) (d : Option Datum) :
    Option α × List ConfigMisfit :=
  match d with
  | none => (none, [])
  | some d => ((decoder d).toOption, misfit? (utf8 name) (decoder d))

def texts (name : String) (d : Option Datum) : List Bytes × List ConfigMisfit :=
  match d with
  | none => ([], [])
  | some d => decodeTexts (utf8 name) 0 (listItems d)

/-- The configuration of fields and environment. -/
def decode (environment : Bytes → Option Bytes) (fields : List (Bytes × Datum)) :
    Except (List ConfigMisfit) Config :=
  let settings := settings environment fields
  let flag (name : String) := option decodeBool name (setting? settings name)
  let list (name : String) := texts name (setting? settings name)
  let (input, m₁) := list "input"
  let (external, m₂) := list "external"
  let (treeshake, m₃) := flag "treeshake"
  let (unknownGlobalSideEffects, m₄) := flag "unknownGlobalSideEffects"
  let (propertyReadSideEffects, m₅) := flag "propertyReadSideEffects"
  let (freeze, m₆) := flag "freeze"
  let (namespaceTag, m₇) := flag "namespaceToStringTag"
  let (minify, m₈) := flag "minifyWhitespace"
  let (maxPasses, m₉) := option decodeInteger "maxPasses" (setting? settings "maxPasses")
  let (silence, m₁₀) := list "silence"
  let (logLevel, m₁₁) := option decodeText "logLevel" (setting? settings "logLevel")
  match m₁ ++ m₂ ++ m₃ ++ m₄ ++ m₅ ++ m₆ ++ m₇ ++ m₈ ++ m₉ ++ m₁₀ ++ m₁₁ with
  | [] => .ok {
      input, external, treeshake, unknownGlobalSideEffects, propertyReadSideEffects, freeze,
      namespaceTag, minify, maxPasses, silence, logLevel := logLevel.getD [] }
  | misfits => .error misfits

/-- All misfits in the order of their messages. -/
def misfitsMessage (misfits : List ConfigMisfit) : Bytes :=
  let points := Bytes.sort (misfits.map fun m => utf8 "* " ++ m.message)
  Bytes.ofNat misfits.length ++ utf8 " error(s) decoding:\n\n" ++ Bytes.join [10] points

end Config

end Winnow
