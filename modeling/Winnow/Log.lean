import Winnow.Text.Blank
import Winnow.Text.Quoted

/-!
# Log lines

A record is written on one line: time, level, message, and after a bar the attributes, with keys
qualified by the groups that were open when the attribute was given.
-/

namespace Winnow.Log

abbrev Level := Int

namespace Level

def debug : Level := -4
def info : Level := 0
def warn : Level := 4
def error : Level := 8

def silent : Level := 100

def ofText (s : Bytes) : Level :=
  let word := Text.lower (Text.trim s)
  if word = utf8 "debug" then debug
  else if word = utf8 "warn" ∨ word = utf8 "warning" then warn
  else if word = utf8 "error" then error
  else if word = utf8 "silent" ∨ word = utf8 "quiet" ∨ word = utf8 "off" then silent
  else info

def ofVerbosity (count : Int) (quiet : Bool) : Level :=
  if quiet then silent else if count = 0 then warn else if count = 1 then info else debug

def text (level : Level) : Bytes :=
  if level ≥ error then utf8 "error"
  else if level ≥ warn then utf8 "warn"
  else if level ≥ info then utf8 "info"
  else utf8 "debug"

end Level

def padded (width n : Nat) : Bytes :=
  let digits := Bytes.ofNat n
  List.replicate (width - digits.length) 48 ++ digits

def civil (days : Int) : Int × Nat × Nat :=
  let z := days + 719468
  let era := z.fdiv 146097
  let dayOfEra := (z - era * 146097).toNat
  let yearOfEra := (dayOfEra - dayOfEra / 1460 + dayOfEra / 36524 - dayOfEra / 146096) / 365
  let dayOfYear := dayOfEra - (365 * yearOfEra + yearOfEra / 4 - yearOfEra / 100)
  let shifted := (5 * dayOfYear + 2) / 153
  let day := dayOfYear - (153 * shifted + 2) / 5 + 1
  let month := if shifted < 10 then shifted + 3 else shifted - 9
  let year := (yearOfEra : Int) + era * 400 + (if month ≤ 2 then 1 else 0)
  (year, month, day)

def timeText (seconds : Int) : Bytes :=
  let days := seconds.fdiv 86400
  let second := (seconds - days * 86400).toNat
  let (year, month, day) := civil days
  (if year < 0 then [45] else []) ++ padded 4 year.natAbs ++ [45] ++ padded 2 month ++ [45] ++
    padded 2 day ++ [84] ++ padded 2 (second / 3600) ++ [58] ++ padded 2 (second / 60 % 60) ++
    [58] ++ padded 2 (second % 60) ++ [90]

def fractionText (places n : Nat) : Bytes :=
  if n = 0 then []
  else 46 :: ((padded places n).reverse.dropWhile (· == 48)).reverse

def durationText (nanoseconds : Int) : Bytes :=
  let n := nanoseconds.natAbs
  let sign : Bytes := if nanoseconds < 0 then [45] else []
  if n = 0 then utf8 "0s"
  else if n < 1000 then sign ++ Bytes.ofNat n ++ utf8 "ns"
  else if n < 1000000 then
    sign ++ Bytes.ofNat (n / 1000) ++ fractionText 3 (n % 1000) ++ utf8 "µs"
  else if n < 1000000000 then
    sign ++ Bytes.ofNat (n / 1000000) ++ fractionText 6 (n % 1000000) ++ utf8 "ms"
  else
    let seconds := n / 1000000000
    let hours := if seconds ≥ 3600 then Bytes.ofNat (seconds / 3600) ++ utf8 "h" else []
    let minutes := if seconds ≥ 60 then Bytes.ofNat (seconds / 60 % 60) ++ utf8 "m" else []
    sign ++ hours ++ minutes ++ Bytes.ofNat (seconds % 60) ++
      fractionText 9 (n % 1000000000) ++ utf8 "s"

mutual

inductive AttrValue where
  | text (s : Bytes)
  | wording (s : Bytes)
  | int (n : Int)
  | bool (b : Bool)
  | duration (nanoseconds : Int)
  | time (seconds : Int)
  | group (attrs : List Attr)

inductive Attr where
  | mk (key : Bytes) (value : AttrValue)

end

def Attr.key : Attr → Bytes
  | .mk key _ => key

def Attr.value : Attr → AttrValue
  | .mk _ value => value

def AttrValue.isEmptyGroup : AttrValue → Bool
  | .group [] => true
  | _ => false

def AttrValue.ofGroup (attrs : List Attr) : AttrValue :=
  .group (attrs.filter fun a => !a.value.isEmptyGroup)

def textValue (s : Bytes) : Bytes :=
  if s.isEmpty || s.any (fun b => b == 32 || b == 61 || b == 34 || b == 124) then Text.quoted s
  else s

mutual

def AttrValue.format : AttrValue → Bytes
  | .text s => textValue s
  | .wording s => s
  | .int n => Bytes.ofInt n
  | .bool b => if b then utf8 "true" else utf8 "false"
  | .duration n => durationText n
  | .time n => timeText n
  | .group attrs => [123] ++ Bytes.join [32] (formatAll attrs) ++ [125]

def formatAll : List Attr → List Bytes
  | [] => []
  | .mk key value :: rest => (key ++ [61] ++ value.format) :: formatAll rest

end

structure Record where
  level : Level
  message : Bytes
  attrs : List Attr := []

structure Logger where
  level : Level
  attrs : List Attr := []
  groups : List Bytes := []

namespace Logger

def qualify (logger : Logger) : Attr → Attr
  | .mk key value =>
    if logger.groups.isEmpty || key.isEmpty then .mk key value
    else .mk (Bytes.join [46] logger.groups ++ [46] ++ key) value

def withAttrs (logger : Logger) (attrs : List Attr) : Logger :=
  { logger with attrs := logger.attrs ++ attrs.map logger.qualify }

def withGroup (logger : Logger) (name : Bytes) : Logger :=
  if name.isEmpty then logger else { logger with groups := logger.groups ++ [name] }

def enabled (logger : Logger) (level : Level) : Bool := level ≥ logger.level

def body (logger : Logger) (record : Record) : Bytes :=
  let own := (record.attrs.filter fun a => !a.value.isEmptyGroup).map logger.qualify
  let attrs := logger.attrs ++ own
  let shown := attrs.filter fun a => !a.key.isEmpty
  [91] ++ Level.text record.level ++ utf8 "] " ++ record.message ++
    (if attrs.isEmpty then [] else utf8 " |") ++
    shown.flatMap (fun a => [32] ++ a.key ++ [61] ++ a.value.format) ++ [10]

def line? (logger : Logger) (seconds : Int) (record : Record) : Option Bytes :=
  if logger.enabled record.level then some (timeText seconds ++ [32] ++ logger.body record)
  else none

end Logger

end Winnow.Log
