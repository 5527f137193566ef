import Winnow.Access.Entity
import Winnow.Diagnostic
import Winnow.Graph.Module
import Winnow.Log

/-!
# The graph of a bundle

Everything that is known of a bundle while it is built. A program that belongs to no module can be
put into a graph as well; names in it are looked up without regard to imports.
-/

namespace Winnow

/-- In which order those who rely on the keys of an object are told when all of it is forgotten. Any
order will do; each object does so once. -/
structure KeyOrder where
  arrange : NodeId → List Bytes → List Bytes := fun _ keys => keys
  perm : ∀ n keys, (arrange n keys).Perm keys := by exact fun _ _ => .refl _

structure AnalysisOptions where
  unknownGlobalSideEffects : Bool := true
  propertyReadSideEffects : Bool := true
  keyOrder : KeyOrder := {}

inductive Resolution where
  | nothing
  | bound (var : VarId)
  | missing
  deriving DecidableEq, Repr

structure Facts where
  included : Bool := false
  branch : BranchState := .unresolved
  returned : Option Entity := none
  applied : Bool := false
  forgotten : Bool := false
  forgottenKeys : List Bytes := []
  dependents : List Origin := []
  keyDependents : List (Bytes × List Origin) := []
  deriving DecidableEq, Repr, Inhabited

structure NodeRecord where
  node : Node
  parent : Option NodeId := none
  module : Option ModuleId := none
  resolution : Resolution := .nothing
  facts : Facts := {}
  deriving Inhabited

structure Graph where
  options : AnalysisOptions := {}
  symbols : Symbols := Symbols.empty
  nodes : Array NodeRecord := #[]
  modules : Array Module := #[]
  order : List ModuleId := []
  entries : List ModuleId := []
  externalSources : List Bytes := []
  externals : List ((Bytes × Bytes) × VarId) := []
  diagnostics : Diagnostics := {}
  log : List Log.Record := []
  needsPass : Bool := false
  tracker : Tracker Entity := {}
  unions : Array (List Entity) := #[]
  observed : Array Nat := #[]

namespace Graph

/-! ## Reading -/

def record? (g : Graph) (n : NodeId) : Option NodeRecord := g.nodes[n]?

def node? (g : Graph) (n : NodeId) : Option Node := (g.record? n).map NodeRecord.node

def facts (g : Graph) (n : NodeId) : Facts := ((g.record? n).map NodeRecord.facts).getD {}

def resolution (g : Graph) (n : NodeId) : Resolution :=
  ((g.record? n).map NodeRecord.resolution).getD .nothing

def moduleOf (g : Graph) (n : NodeId) : Option ModuleId := (g.record? n).bind NodeRecord.module

def startOf (g : Graph) (n : NodeId) : Nat := ((g.node? n).map Node.start).getD 0

def var? (g : Graph) (v : VarId) : Option Variable := g.symbols.var? v

def module? (g : Graph) (m : ModuleId) : Option Module := g.modules[m]?

def pathOf (g : Graph) (m : ModuleId) : Bytes := ((g.module? m).map Module.path).getD []

def findModule? (g : Graph) (path : Bytes) : Option ModuleId :=
  g.modules.findIdx? fun m => m.path = path

def namedVar? (g : Graph) : Node → Option VarId
  | .binder b => some b.var
  | n => match g.resolution n.id with
    | .bound v => some v
    | _ => none

def isIncluded (g : Graph) (n : NodeId) : Bool := (g.facts n).included

def isVarIncluded (g : Graph) (v : VarId) : Bool := ((g.var? v).map Variable.included).getD false

/-! ## Changing -/

def modifyFacts (g : Graph) (n : NodeId) (f : Facts → Facts) : Graph :=
  { g with nodes := g.nodes.modify n fun r => { r with facts := f r.facts } }

def setResolution (g : Graph) (n : NodeId) (r : Resolution) : Graph :=
  { g with nodes := g.nodes.modify n fun rec => { rec with resolution := r } }

def modifyVar (g : Graph) (v : VarId) (f : Variable → Variable) : Graph :=
  { g with symbols := g.symbols.modifyVariable v f }

def modifyModule (g : Graph) (m : ModuleId) (f : Module → Module) : Graph :=
  { g with modules := g.modules.modify m f }

def addVariable (g : Graph) (v : Variable) : VarId × Graph :=
  let (id, symbols) := g.symbols.addVariable v
  (id, { g with symbols })

def requestPass (g : Graph) : Graph := { g with needsPass := true }

def warn (g : Graph) (m : ModuleId) (code : Code) (message : Bytes) (position : Nat) : Graph :=
  { g with diagnostics := g.diagnostics.warn (g.pathOf m) code.text message position }

def reportError (g : Graph) (m : ModuleId) (code : Code) (message : Bytes) (position : Nat) :
    Graph :=
  { g with diagnostics := g.diagnostics.error (g.pathOf m) code.text message position }

def warnBundle (g : Graph) (code : Code) (message : Bytes) : Graph :=
  { g with diagnostics := g.diagnostics.warn [] code.text message 0 }

def reportBundleError (g : Graph) (code : Code) (message : Bytes) : Graph :=
  { g with diagnostics := g.diagnostics.error [] code.text message 0 }

def note (g : Graph) (message : String) (attrs : List Log.Attr) : Graph :=
  { g with log := g.log ++ [{ level := Log.Level.debug, message := utf8 message, attrs }] }

/-- Puts the nodes of a parsed program into their places. The program was numbered from the present
number of nodes on. -/
def addProgram (g : Graph) (parsed : Program) (nextNode : NodeId) (module : Option ModuleId) :
    Graph :=
  let room := g.nodes ++ Array.replicate (nextNode - g.nodes.size) default
  let nodes := ((Outline.ofProgram parsed).links none).foldl (fun nodes link =>
    nodes.setIfInBounds link.1.id { node := link.1, parent := link.2, module }) room
  { g with nodes }

end Graph

end Winnow
