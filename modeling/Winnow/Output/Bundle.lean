import Winnow.Naming
import Winnow.Output.Layout

/-!
# Layout of bundles

A bundle is written in sections. What has to be imported is read off the layout of the others: the
outside names that they use. The namespace object of a module stands behind its code, or in front of
it, with getters for its members, if the object is mentioned in code that runs before.
-/

namespace Winnow

structure OutputOptions where
  style : Style := .pretty
  freeze : Bool := true
  namespaceTag : Bool := false
  deriving DecidableEq, Repr

structure NamespaceObject where
  var : VarId
  members : List (Bytes × VarId)
  merged : List VarId
  isFirst : Bool
  deriving DecidableEq, Repr

structure OutputModule where
  program : Program
  object : Option NamespaceObject

structure Bundle where
  sources : List Bytes
  modules : List OutputModule
  exports : List (Bytes × VarId)
  reexports : List Bytes

namespace Bundle

open Piece

/-! ## From the graph -/

def objectOf (mod : Module) (m : ModuleId) : StateM Graph (Option NamespaceObject) := do
  let g ← get
  match mod.namespaceVar with
  | none => return none
  | some v =>
    match g.var? v with
    | some { form := .moduleNamespace merged, included := true, .. } =>
      return some { var := v, members := ← Graph.namespaceMembers m, merged,
                    isFirst := g.rendersFirst v }
    | _ => return none

def moduleOf (m : ModuleId) : StateM Graph (Option OutputModule) := do
  match (← get).module? m with
  | none => return none
  | some mod => return some { program := mod.program, object := ← objectOf mod m }

def ofGraph : StateM Graph Bundle := do
  let sources := (← get).externalSources
  let modules ← (← get).order.filterMapM moduleOf
  match (← get).entries with
  | [] => return { sources, modules, exports := [], reexports := [] }
  | m :: _ =>
    let exports ← Graph.entryExports m
    return { sources, modules, exports, reexports := (← get).externalReexports m }

/-! ## Namespace objects -/

/-- One member of a namespace object: the value, or a getter if the value can change after the
object was made. -/
def member (g : Graph) (isFirst : Bool) (name : Bytes) (v : VarId) : List Piece :=
  if isFirst || ((g.var? v).map Variable.reassigned).getD false then
    [str "get ", Quote.propertyName name false, space, str "()", space, str "\x7b", space,
     key "return", str " ", Layout.plainName g v, str ";", space, str "\x7d"]
  else [Quote.propertyName name false, str ":", space, Layout.plainName g v]

def entries (g : Graph) (o : OutputOptions) (n : NamespaceObject) : List (List Piece) :=
  [[str "__proto__:", space, str "null"]] ++
    (if o.namespaceTag then [[str "[Symbol.toStringTag]:", space, str "'Module'"]] else []) ++
    n.members.map fun e => member g n.isFirst e.1 e.2

def entryLines : List (List Piece) → List Piece
  | [] => []
  | [e] => [newline, indent 1] ++ e
  | e :: es => [newline, indent 1] ++ e ++ [str ","] ++ entryLines es

def namespaceObject (g : Graph) (o : OutputOptions) (n : NamespaceObject) : List Piece :=
  [indent 0, str "const ", Layout.plainName g n.var, space, str "=", space] ++
    (if !n.merged.isEmpty then [str "/*#__PURE__*/_mergeNamespaces("]
      else if o.freeze then [str "/*#__PURE__*/Object.freeze("] else []) ++
    [str "\x7b"] ++ entryLines (entries g o n) ++ [newline, indent 0, str "\x7d"] ++
    (if !n.merged.isEmpty then
        [str ",", space, str "["] ++ commas (n.merged.map fun v => [Layout.plainName g v]) ++
          [str "])"]
      else if o.freeze then [str ")"] else []) ++
    [str ";", newline]

def moduleCode (g : Graph) (o : OutputOptions) (m : OutputModule) : List Piece :=
  match m.object with
  | none => m.program.layout g
  | some n =>
    if n.isFirst then namespaceObject g o n ++ m.program.layout g
    else m.program.layout g ++ namespaceObject g o n

/-! ## Exports and imports -/

def exportItem (g : Graph) (name : Bytes) (v : VarId) : List Piece :=
  Layout.plainName g v ::
    (if Layout.nameOf g v = name then [] else [str " as ", Quote.propertyName name false])

def exportSection (g : Graph) (b : Bundle) : List Piece :=
  (if b.exports.isEmpty then []
    else [str "export", space, str "\x7b", space] ++
      commas (b.exports.map fun e => exportItem g e.1 e.2) ++
      [space, str "\x7d", str ";", newline]) ++
    b.reexports.flatMap fun source =>
      [str "export", space, str "*", space, str "from", space, .text (Quote.string source),
       str ";", newline]

structure ExternalName where
  source : Bytes
  imported : Bytes
  name : Bytes
  deriving DecidableEq, Repr

def externalNames (g : Graph) (pieces : List Piece) : List ExternalName :=
  (named pieces).filterMap fun v =>
    match g.var? v with
    | some w => match w.form with
      | .external source imported => some { source, imported, name := w.renderName }
      | _ => none
    | none => none

def fromSource (source : Bytes) : List Piece :=
  [space, .text (Quote.string source), str ";", newline]

def importItem (e : ExternalName) : List Piece :=
  Quote.propertyName e.imported false ::
    (if e.name = e.imported then [] else [str " as ", .text e.name])

def lastName (names : List ExternalName) : Bytes :=
  (names.getLast?.map ExternalName.name).getD []

/-- The imports from one source, given the names of it that are used. A source of which nothing is
used is imported for its effects, unless it is exported as a whole. -/
def importsFrom (source : Bytes) (isReexported : Bool) (names : List ExternalName) : List Piece :=
  let default := lastName (names.filter fun e => e.imported = utf8 "default")
  let whole := lastName (names.filter fun e => e.imported = utf8 "*")
  let named := names.filter fun e => e.imported ≠ utf8 "default" ∧ e.imported ≠ utf8 "*"
  if default.isEmpty && whole.isEmpty && named.isEmpty then
    if isReexported then [] else key "import" :: fromSource source
  else
    (if whole.isEmpty then []
      else [key "import", str " * as ", .text whole, str " from"] ++ fromSource source) ++
    (if default.isEmpty && named.isEmpty then []
      else [key "import"] ++
        (if default.isEmpty then []
          else [str " ", .text default] ++ if named.isEmpty then [] else [str ","]) ++
        (if named.isEmpty then []
          else [space, str "\x7b", space] ++ commas (named.map importItem) ++
            [space, str "\x7d"]) ++
        [space, str "from"] ++ fromSource source)

def importSection (b : Bundle) (names : List ExternalName) : List Piece :=
  b.sources.flatMap fun source =>
    importsFrom source (b.reexports.contains source) (names.filter fun e => e.source = source)

/-! ## The function that merges namespaces -/

def mergeHead : String :=
"function _mergeNamespaces(n, m) \x7b
	m.forEach(function (e) \x7b
		e && typeof e !== 'string' && !Array.isArray(e) && Object.keys(e).forEach(function (k) \x7b
			if (k !== 'default' && !(k in n)) \x7b
				var d = Object.getOwnPropertyDescriptor(e, k);
				Object.defineProperty(n, k, d.get ? d : \x7b
					enumerable: true,
					get: function () \x7b return e[k]; \x7d
				\x7d);
			\x7d
		\x7d);
	\x7d);
	return "

def compactMergeHead : String :=
  "function _mergeNamespaces(n,m)\x7bm.forEach(function(e)\x7be&&typeof e!=='string'&&" ++
  "!Array.isArray(e)&&Object.keys(e).forEach(function(k)\x7bif(k!=='default'&&!(k in n))\x7b" ++
  "var d=Object.getOwnPropertyDescriptor(e,k);Object.defineProperty(n,k,d.get?d:\x7b" ++
  "enumerable:true,get:function()\x7breturn e[k]\x7d\x7d)\x7d\x7d)\x7d);return "

/-- The function that adds to the object `n` a getter for every name that one of the namespaces `m`
has and `n` has not. -/
def mergeFunction (o : OutputOptions) : Bytes :=
  let result := if o.freeze then "Object.freeze(n)" else "n"
  match o.style with
  | .pretty => utf8 mergeHead ++ utf8 result ++ utf8 ";\n\x7d\n"
  | .compact => utf8 compactMergeHead ++ utf8 result ++ utf8 "\x7d"

/-! ## The whole bundle -/

def merges (b : Bundle) : Bool :=
  b.modules.any fun m => m.object.any fun n => !n.merged.isEmpty

def render (g : Graph) (o : OutputOptions) (b : Bundle) : Except LayoutFault Bytes := do
  let bodies ← b.modules.mapM fun m => check (moduleCode g o m)
  let exports := exportSection g b
  let names := externalNames g (bodies.flatten ++ exports)
  let sections := [write o.style (importSection b names)] ++
    (if b.merges then [mergeFunction o] else []) ++ bodies.map (write o.style) ++
    [write o.style exports]
  let separator := match o.style with
    | .pretty => utf8 "\n"
    | .compact => []
  return Bytes.join separator (sections.filter fun s => !s.isEmpty)

end Bundle

end Winnow
