import Winnow.Text.Bytes

/-!
# Module ids and specifiers

A specifier is a path that is resolved against the importing module, or a bare name, which stands
for a module outside the bundle. A path that is no module by itself is tried with the usual
extensions.
-/

namespace Winnow.Specifier

def step (rooted : Bool) (done : List Bytes) (element : Bytes) : List Bytes :=
  if element.isEmpty || element == utf8 "." then done
  else if element == utf8 ".." then
    match done with
    | last :: before => if last == utf8 ".." then element :: done else before
    | [] => if rooted then [] else [element]
  else element :: done

/-- The shortest path equal to a given one, without `.` and empty elements and with every `..` that
has something to leave carried out. -/
def clean (path : Bytes) : Bytes :=
  let rooted := path.head? == some 47
  let elements := (Bytes.splitOn 47 path).foldl (step rooted) []
  let body := Bytes.join [47] elements.reverse
  if rooted then 47 :: body else if body.isEmpty then utf8 "." else body

def directory (path : Bytes) : Bytes :=
  match Bytes.findLastByte? (· == 47) path with
  | some i => clean (path.take (i + 1))
  | none => utf8 "."

def join (a b : Bytes) : Bytes :=
  match a.isEmpty, b.isEmpty with
  | true, true => []
  | true, false => clean b
  | false, true => clean a
  | false, false => clean (a ++ 47 :: b)

def isRelative (specifier : Bytes) : Bool :=
  specifier.startsWith (utf8 "./") || specifier.startsWith (utf8 "../") ||
    specifier.startsWith (utf8 "/")

def candidates (base : Bytes) : List Bytes :=
  [base, base ++ utf8 ".js", base ++ utf8 ".mjs", join base (utf8 "index.js")]

def resolve? (isModule : Bytes → Bool) (importer specifier : Bytes) : Option Bytes :=
  let base := match specifier with
    | 47 :: rest => clean rest
    | _ => join (directory importer) specifier
  (candidates base).find? isModule

def resolveEntry? (isModule : Bytes → Bool) (entry : Bytes) : Option Bytes :=
  (candidates (clean (entry.dropLead [47]))).find? isModule

end Winnow.Specifier
