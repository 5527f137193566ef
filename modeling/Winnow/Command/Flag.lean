import Winnow.Config.Decode
import Winnow.Data.Csv

/-!
# Flags

A switch and a counter need no value; all other flags take it behind an equals sign or from the next
argument, and short ones also from the rest of their own argument. After `--` there are no more
flags.
-/

namespace Winnow.Command

/-- What a flag takes as its value. -/
inductive FlagKind where
  | switch
  | count
  | text
  | integer
  | texts
  deriving DecidableEq, Repr

/-- A flag, with what its help says. -/
structure Flag where
  name : String
  kind : FlagKind
  short : Option Char := none
  purpose : String
  valueName : Option String := none
  initially : Option String := none
  deriving DecidableEq, Repr

/-- Whether a flag needs no value. -/
def Flag.standsAlone (f : Flag) : Bool := f.kind == .switch || f.kind == .count

def named? (flags : List Flag) (name : Bytes) : Option Flag :=
  flags.find? fun f => utf8 f.name = name

def shortNamed? (flags : List Flag) (c : UInt8) : Option Flag :=
  flags.find? fun f => f.short.map Bytes.code = some c

/-- The value a flag was given. -/
inductive FlagValue where
  | switch (on : Bool)
  | count (n : Int)
  | text (s : Bytes)
  | integer (n : Int)
  | texts (ts : List Bytes)
  deriving DecidableEq, Repr

/-- Why a text is no value of a flag. -/
inductive ValueFault where
  | notBool (s : Bytes)
  | notInteger (s : Bytes) (fault : Numeral.Fault)
  | notTexts (fault : Csv.Fault)
  deriving DecidableEq, Repr

def ValueFault.message : ValueFault → Bytes
  | notBool s => notBoolMessage s
  | notInteger s fault => notIntegerMessage s fault
  | notTexts fault => fault.message

/-- Why arguments cannot be read. -/
inductive FlagFault where
  | malformed (argument : Bytes)
  | unknown (name : Bytes)
  | unknownShort (c : UInt8) (group : Bytes)
  | noValue (argument : Bytes)
  | noValueShort (c : UInt8) (group : Bytes)
  | unsuited (flag : Flag) (value : Bytes) (fault : ValueFault)
  deriving DecidableEq, Repr

/-- How messages name a flag. -/
def Flag.text (f : Flag) : String :=
  match f.short with
  | some c => s!"-{c}, --{f.name}"
  | none => s!"--{f.name}"

def FlagFault.message : FlagFault → Bytes
  | malformed argument => utf8 "bad flag syntax: " ++ argument
  | unknown name => utf8 "unknown flag: --" ++ name
  | unknownShort c group =>
    utf8 "unknown shorthand flag: " ++ Text.quotedByte c ++ utf8 " in -" ++ group
  | noValue argument => utf8 "flag needs an argument: " ++ argument
  | noValueShort c group =>
    utf8 "flag needs an argument: " ++ Text.quotedByte c ++ utf8 " in -" ++ group
  | unsuited flag value fault =>
    utf8 "invalid argument " ++ Text.quoted value ++ utf8 " for " ++
      Text.quoted (utf8 flag.text) ++ utf8 " flag: " ++ fault.message

/-- The flags that were given, and all other arguments. -/
structure Arguments where
  given : List (String × FlagValue) := []
  rest : List Bytes := []
  deriving DecidableEq, Repr

namespace Arguments

def value? (a : Arguments) (name : String) : Option FlagValue := a.given.lookup name

def switch? (a : Arguments) (name : String) : Option Bool :=
  match a.value? name with
  | some (.switch on) => some on
  | _ => none

def count? (a : Arguments) (name : String) : Option Int :=
  match a.value? name with
  | some (.count n) => some n
  | _ => none

def text? (a : Arguments) (name : String) : Option Bytes :=
  match a.value? name with
  | some (.text s) => some s
  | _ => none

def integer? (a : Arguments) (name : String) : Option Int :=
  match a.value? name with
  | some (.integer n) => some n
  | _ => none

def texts (a : Arguments) (name : String) : List Bytes :=
  match a.value? name with
  | some (.texts ts) => ts
  | _ => []

/-- Enters a value in place of an earlier one. -/
def set (a : Arguments) (name : String) (v : FlagValue) : Arguments :=
  { a with given := (name, v) :: a.given.filter fun g => g.1 != name }

def addRest (a : Arguments) (s : Bytes) : Arguments := { a with rest := a.rest ++ [s] }

/-- The value of a text; counts and lists go on from the earlier value. -/
def read (a : Arguments) (f : Flag) : Option Bytes → Except ValueFault FlagValue
  | none =>
    match f.kind with
    | .count => .ok (.count ((a.count? f.name).getD 0 + 1))
    | _ => .ok (.switch true)
  | some s =>
    let integer : Except ValueFault Int := (Numeral.integer s).mapError (.notInteger s)
    match f.kind with
    | .switch =>
      match boolOfText? s with
      | some b => .ok (.switch b)
      | none => .error (.notBool s)
    | .count => do
      if s = utf8 "+1" then return .count ((a.count? f.name).getD 0 + 1)
      return .count (← integer)
    | .integer => do return .integer (← integer)
    | .text => .ok (.text s)
    | .texts => do
      let ts ← (Csv.read s).mapError ValueFault.notTexts
      return .texts (a.texts f.name ++ ts)

/-- Enters a flag with its value. -/
def give (a : Arguments) (f : Flag) (value : Option Bytes) : Except FlagFault Arguments :=
  match a.read f value with
  | .ok v => .ok (a.set f.name v)
  | .error fault => .error (.unsuited f (value.getD []) fault)

/-- Takes a flag of two dashes. -/
def takeLong (flags : List Flag) (a : Arguments) (argument : Bytes) (following : List Bytes) :
    Except FlagFault (Arguments × List Bytes) := do
  let (name, value) := (argument.drop 2).span (· != 61)
  if name.isEmpty || name.head? = some 45 then throw (.malformed argument)
  let some f := named? flags name | throw (.unknown name)
  match value, following with
  | _ :: v, _ => return (← a.give f (some v), following)
  | [], v :: more =>
    if f.standsAlone then return (← a.give f none, following)
    else return (← a.give f (some v), more)
  | [], [] => if f.standsAlone then return (← a.give f none, []) else throw (.noValue argument)

/-- Takes a group of flags of one dash; only the last has a value. -/
def takeShort (flags : List Flag) (following : List Bytes) :
    (steps : Nat) → Arguments → (group : Bytes) → Except FlagFault (Arguments × List Bytes)
  | 0, a, _ => .ok (a, following)
  | _ + 1, a, [] => .ok (a, following)
  | n + 1, a, c :: group => do
    if Bytes.startsWith (c :: group) (utf8 "test.") then return (a, following)
    let some f := shortNamed? flags c | throw (.unknownShort c (c :: group))
    match group, following with
    | 61 :: b :: v, _ => return (← a.give f (some (b :: v)), following)
    | b :: v, _ =>
      if f.standsAlone then takeShort flags following n (← a.give f none) group
      else return (← a.give f (some (b :: v)), following)
    | [], v :: more =>
      if f.standsAlone then return (← a.give f none, following)
      else return (← a.give f (some v), more)
    | [], [] =>
      if f.standsAlone then return (← a.give f none, [])
      else throw (.noValueShort c (c :: group))

/-- Reads arguments one by one. -/
def parse (flags : List Flag) : (steps : Nat) → Arguments → List Bytes → Except FlagFault Arguments
  | 0, a, _ => .ok a
  | _ + 1, a, [] => .ok a
  | n + 1, a, s :: more =>
    match s with
    | 45 :: 45 :: [] => .ok { a with rest := a.rest ++ more }
    | 45 :: 45 :: _ => do
      let (a, more) ← takeLong flags a s more
      parse flags n a more
    | 45 :: c :: group => do
      let (a, more) ← takeShort flags more (group.length + 1) a (c :: group)
      parse flags n a more
    | _ => parse flags n (a.addRest s) more

def ofList (flags : List Flag) (arguments : List Bytes) : Except FlagFault Arguments :=
  parse flags (arguments.length + 1) {} arguments

end Arguments

/-- Whether an argument is a flag with the next one as its value. -/
def takesNext (flags : List Flag) (s : Bytes) : Bool :=
  let standsAlone (f : Option Flag) : Bool := (f.map Flag.standsAlone).getD false
  if s.contains 61 then false
  else match s with
    | 45 :: 45 :: name => !standsAlone (named? flags name)
    | [45, c] => !standsAlone (shortNamed? flags c)
    | _ => false

/-- The arguments that are neither flags nor their values. -/
def wordsOf (flags : List Flag) : List Bytes → List Bytes
  | [] => []
  | s :: more =>
    if s = utf8 "--" then []
    else if takesNext flags s then
      match more with
      | _ :: next :: rest => wordsOf flags (next :: rest)
      | _ => []
    else if s.isEmpty || s.head? = some 45 then wordsOf flags more
    else s :: wordsOf flags more

/-- The arguments without the first such word. -/
def withoutWord (flags : List Flag) (word : Bytes) : List Bytes → List Bytes
  | [] => []
  | s :: more =>
    if s = utf8 "--" then s :: more
    else if takesNext flags s then
      match more with
      | v :: rest => s :: v :: withoutWord flags word rest
      | [] => [s]
    else if s = word then more
    else s :: withoutWord flags word more

end Winnow.Command
