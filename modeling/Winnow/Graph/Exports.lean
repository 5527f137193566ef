import Winnow.Graph.Trace

/-!
# What a linked graph shows to the outside
-/

namespace Winnow.Graph

def entryExports (m : ModuleId) : StateM Graph (List (Bytes × VarId)) := do
  return (← namespaceMembers m).mergeSort fun a b => Bytes.le a.1 b.1

def externalReexports (g : Graph) (m : ModuleId) : List Bytes :=
  (g.starNames m).filterMap starSource?

/-- The variables for exports of outside sources: by source in the order in which sources were
met, and by name within a source. -/
def externalVariables (g : Graph) : List VarId :=
  g.externalSources.flatMap fun source =>
    let own := g.externals.filter fun e => e.1.1 = source
    (own.mergeSort fun a b => Bytes.le a.1.2 b.1.2).map Prod.snd

/-- Whether a namespace object has to be written before the code of its module, with getters for its
members: it is mentioned in a module that runs no later than its own. -/
def rendersFirst (g : Graph) (v : VarId) : Bool :=
  match g.var? v with
  | none => false
  | some w =>
    let index (m : Option ModuleId) : Option Nat := (m.bind g.module?).bind Module.execIndex
    match index w.module with
    | none => false
    | some own => w.references.any fun n =>
      match index (g.moduleOf n) with
      | some i => i ≤ own
      | none => false

end Winnow.Graph
