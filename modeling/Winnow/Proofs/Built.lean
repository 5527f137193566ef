import Winnow.Build
import Winnow.Proofs.DefaultExports
import Winnow.Proofs.Tracing
import Winnow.Proofs.Placing

/-!
# Graphs as they are built

What holds of a graph once its modules are loaded and its names are resolved, before the analysis
touches it (`Graph.Built`): every node is in its place, every number stands for something, and
nothing is included or assumed yet. `build_built` proves it of every build that succeeds.

A property access stands for a variable as a whole only if it is read from a namespace under a key
that is written out, so there is no declaration below it (`Graph.Named.whole`).
-/

namespace Winnow

open Winnow.Graph Conduct Relation Steps Outline Program List Variable

variable {g g' : Graph} {m m' : Module} {w w' : Variable} {o : BuildOptions} {files : Files}
  {P : Graph → Prop} {entries : List Bytes} {n : Node} {table : NodeId → Option Node}
  {owner : Option ModuleId} {s : ScopeId} {α : Type} {v : VarId} {f : Variable → Variable}

/-! ## Names and variables -/

/-- A variable that the analysis has not touched. -/
structure Variable.Untouched (w : Variable) : Prop where
  included : w.included = false
  reassigned : w.reassigned = false
  dependents : w.dependents = []
  requested : w.requested = []
  passedOn : w.passedOn = []

/-- Whether what a node refers to is decided when names are resolved. -/
def Node.isAccess : Node → Bool
  | .expr (.ident _) | .expr (.receiver ..) | .expr (.member ..) | .expr (.index ..) => true
  | _ => false

/-- Whether a node is a name or a literal, with nothing below it. -/
def Node.isPlain : Node → Bool
  | .expr (.ident _) | .expr (.literal ..) => true
  | _ => false

/-- Nodes and variables refer to each other by numbers that stand for something. -/
structure Graph.Named (g : Graph) : Prop where
  declarations : ∀ {v w d}, g.var? v = some w → d ∈ w.declarations →
    ∃ n, g.node? d = some n ∧ n.declares v
  bound : ∀ {k n v}, g.node? k = some n → n.bound? = some v → v < g.symbols.vars.size
  resolved : ∀ {k v}, g.resolution k = .bound v → v < g.symbols.vars.size
  whole : ∀ {k n}, g.node? k = some n → g.resolution k ≠ .nothing →
    n.isAccess = true ∧ ∀ c ∈ n.children, c.isPlain = true ∨ g.resolution c.id ≠ .nothing

/-- A graph that is built, before the analysis touches it. -/
structure Graph.Built (g : Graph) : Prop where
  placed : g.Placed
  linkable : Linkable g
  named : g.Named
  facts : ∀ {k r}, g.record? k = some r → r.facts = {}
  vars : ∀ {v w}, g.var? v = some w → w.Untouched
  modules : ∀ {m mod}, g.module? m = some mod → mod.allExportsIncluded = false
  tracker : g.tracker = {}
  needsPass : g.needsPass = false

theorem Graph.node?_congr (h : g'.nodes = g.nodes) : g'.node? = g.node? := by
  funext k
  simp [node?, record?, h]

theorem Graph.resolution_congr (h : g'.nodes = g.nodes) : g'.resolution = g.resolution := by
  funext k
  simp [resolution, record?, h]

/-! ## Linking and resolving -/

theorem Variable.Linked.untouched (h : w.Linked) : w.Untouched := by
  rw [h.rest]
  exact ⟨rfl, rfl, rfl, rfl, rfl⟩

theorem Variable.Linked.declarations (h : w.Linked) : w.declarations = [] := by
  unfold Variable.declarations
  rcases h.form with ⟨source, imported, hform⟩ | hform
  · rw [hform]
  · unfold isNamespace at hform
    split at hform
    · rename_i heq
      rw [heq]
    · cases hform

theorem Linked.nodes (h : Linked g g') : g'.nodes = g.nodes := by rw [h.rest]

theorem Graph.Built.linked (hg : g.Built) (hl : Linked g g') (hg' : Linkable g') : g'.Built := by
  have hnode := node?_congr hl.nodes
  have hresolution := resolution_congr hl.nodes
  have hvar : ∀ {v w}, g'.var? v = some w → g.var? v = some w ∨ w.Linked := by
    intro v w hw
    cases hv : g.var? v with
    | none => exact .inr (hl.new hw hv)
    | some u =>
      rw [hl.vars hv] at hw
      exact .inl hw
  refine ⟨?_, hg', ⟨?_, ?_, ?_, ?_⟩, ?_, ?_, ?_, ?_, ?_⟩
  · refine hg.placed.of_same (fun k => ?_) fun {m mod'} hmod' => ?_
    · simp [record?, hl.nodes]
    · obtain ⟨mod, hmod, he⟩ := hl.module?_old hmod'
      exact ⟨mod, hmod, (congrArg Module.program he.plain).symm⟩
  · intro v w d hw hd
    rcases hvar hw with hw | hw
    · rw [hnode]
      exact hg.named.declarations hw hd
    · rw [hw.declarations] at hd
      cases hd
  · intro k n v hn hv
    rw [hnode] at hn
    exact hl.lt (hg.named.bound hn hv)
  · intro k v hv
    rw [hresolution] at hv
    exact hl.lt (hg.named.resolved hv)
  · intro k n hn hr
    rw [hnode] at hn
    rw [hresolution] at hr ⊢
    exact hg.named.whole hn hr
  · intro k r hr
    rw [record?, hl.nodes] at hr
    exact hg.facts hr
  · intro v w hw
    rcases hvar hw with hw | hw
    · exact hg.vars hw
    · exact hw.untouched
  · intro m mod' hmod'
    obtain ⟨mod, hmod, he⟩ := hl.module?_old hmod'
    exact he.allExportsIncluded.trans (hg.modules hmod)
  · rw [hl.rest]
    exact hg.tracker
  · rw [hl.rest]
    exact hg.needsPass

/-- A change to the symbols that leaves namespaces as they were and keeps all names. -/
theorem Linkable.withSymbols (hg : Linkable g) {t : Symbols}
    (harranged : { g with symbols := t }.Arranged)
    (hnames : ∀ {s name v}, g.symbols.lookupIn? s name = some v → t.lookupIn? s name = some v)
    (hspaces : ∀ {v}, g.IsSpace v → { g with symbols := t }.IsSpace v)
    (hforms : ∀ {v w merged}, t.var? v = some w → w.form = .moduleNamespace merged →
      ∃ w', g.var? v = some w' ∧ w.module = w'.module ∧ w'.form = .moduleNamespace merged) :
    Linkable { g with symbols := t } := by
  have hstar : ∀ m, { g with symbols := t }.starNames m = g.starNames m :=
    starNames_congr rfl fun _ => rfl
  have htop : ∀ {v}, g.OnTop v → { g with symbols := t }.OnTop v :=
    fun hv => hv.mono (fun _ => rfl) hnames id hspaces
  refine ⟨harranged, fun h hv => hspaces (hg.namespaceVar h hv),
    fun h hv => ⟨htop (hg.tracedExports h hv).1, (hg.tracedExports h hv).2⟩,
    fun h hv => htop (hg.tracedImports h hv), ?_⟩
  intro v w merged hw hform
  obtain ⟨w', hw', hmodule, hform'⟩ := hforms hw hform
  obtain ⟨m, hm, h⟩ := hg.namespaces hw' hform'
  exact ⟨m, hmodule.trans hm, fun u hu => by rw [hstar]; exact h u hu⟩

/-- A change to the symbols that leaves the variables as they were, but for how they are named and
mentioned, and may add globals. -/
theorem Graph.Built.withSymbols (hg : g.Built) {t : Symbols}
    (hlinkable : Linkable { g with symbols := t })
    (hlt : ∀ {v}, v < g.symbols.vars.size → v < t.vars.size)
    (hvars : ∀ {v w}, t.var? v = some w → w.Untouched ∧
      (w.declarations = [] ∨ ∃ w', g.var? v = some w' ∧ w.declarations = w'.declarations)) :
    { g with symbols := t }.Built := by
  refine ⟨hg.placed.of_same (fun _ => rfl) fun h => ⟨_, h, rfl⟩, hlinkable,
    ⟨?_, fun hn hv => hlt (hg.named.bound hn hv), fun hv => hlt (hg.named.resolved hv),
      hg.named.whole⟩, hg.facts, fun hw => (hvars hw).1, hg.modules, hg.tracker, hg.needsPass⟩
  intro v w d hw hd
  rcases (hvars hw).2 with hnone | ⟨w', hw', hsame⟩
  · rw [hnone] at hd
    cases hd
  · rw [hsame] at hd
    exact hg.named.declarations hw' hd

theorem Graph.Built.modifyVar (hg : g.Built)
    (hf : ∀ w, w.Untouched → (f w).Untouched ∧ (f w).declarations = w.declarations)
    (hlinkable : Linkable (g.modifyVar v f)) : (g.modifyVar v f).Built := by
  refine hg.withSymbols hlinkable ?_ ?_
  · intro u hu
    rw [Symbols.size_modifyVariable]
    exact hu
  · intro u w hw
    rw [Symbols.var?_modifyVariable] at hw
    split at hw
    · obtain ⟨w', hw', rfl⟩ := Option.map_eq_some_iff.mp hw
      obtain ⟨huntouched, hdeclarations⟩ := hf w' (hg.vars hw')
      exact ⟨huntouched, .inr ⟨w', hw', hdeclarations⟩⟩
    · exact ⟨hg.vars hw, .inr ⟨w, hw, rfl⟩⟩

/-- A variable that is only named or mentioned otherwise. -/
structure Variable.Mentioned (w w' : Variable) : Prop where
  module : w'.module = w.module
  outputName : w'.outputName = w.outputName
  name : w'.name = w.name ∨ w.isNamespace = true
  form : w'.form = w.form ∨ w.isReceiver = true ∧ w'.isReceiver = true

theorem Variable.Mentioned.resembles (h : w.Mentioned w') : w.Resembles w' :=
  ⟨h.outputName, h.name, h.form.imp_right .inl⟩

theorem Variable.mentioned_refer (w : Variable) (n : NodeId) (name : Bytes) : w.Mentioned
    { w with
      references := w.references ++ [n]
      name := if w.isNamespace then name else w.name } := by
  refine ⟨rfl, rfl, ?_, .inl rfl⟩
  cases hspace : w.isNamespace with
  | true => exact .inr rfl
  | false => exact .inl rfl

theorem Variable.Mentioned.form_eq (h : w.Mentioned w') {merged : List VarId}
    (hw' : w'.form = .moduleNamespace merged) : w.form = .moduleNamespace merged := by
  rcases h.form with hsame | ⟨-, hreceiver⟩
  · rwa [← hsame]
  · obtain ⟨n, hform⟩ := isReceiver_iff.mp hreceiver
    rw [hw'] at hform
    cases hform

theorem Linkable.mention (hg : Linkable g) (hf : ∀ w, Variable.Mentioned w (f w)) :
    Linkable (g.modifyVar v f) := by
  refine hg.modifyVar (fun w _ => (hf w).resembles) fun w merged hw hform => ?_
  rw [(hf w).module]
  exact hg.namespaces hw ((hf w).form_eq hform)

/-- The modules stay as they were read and in their order, no cycle is reported, and names are
entered into the global scope only. -/
structure Graph.SameOrder (g g' : Graph) : Prop where
  order : g'.order = g.order
  modules : ∀ m, (g'.module? m).map Module.plain = (g.module? m).map Module.plain
  cycles : g'.diagnostics.cycles = g.diagnostics.cycles
  kinds : ∀ s, g'.symbols.kind? s = g.symbols.kind? s
  names : ∀ s name, g.symbols.kind? s ≠ some .global →
    g'.symbols.lookupIn? s name = g.symbols.lookupIn? s name

/-- A graph with a variable for a name that is declared nowhere. -/
def Graph.addGlobal (g : Graph) (s : ScopeId) (name : Bytes) : Graph :=
  { g with symbols := ((g.symbols.addVariable { name, form := .global }).2.enter s name
    g.symbols.vars.size) }

namespace Graph.SameOrder

theorem of_same (horder : g'.order = g.order) (hmodules : g'.modules = g.modules)
    (hcycles : g'.diagnostics.cycles = g.diagnostics.cycles)
    (hscopes : g'.symbols.scopes = g.symbols.scopes) : g.SameOrder g' where
  order := horder
  modules := fun m => by rw [module?, module?, hmodules]
  cycles := hcycles
  kinds := fun s => by rw [Symbols.kind?, Symbols.kind?, Symbols.scope?, Symbols.scope?, hscopes]
  names := fun s name _ => by
    rw [Symbols.lookupIn?, Symbols.lookupIn?, Symbols.scope?, Symbols.scope?, hscopes]

theorem refl (g : Graph) : g.SameOrder g := of_same rfl rfl rfl rfl

theorem trans {a b c : Graph} (h : a.SameOrder b) (h' : b.SameOrder c) : a.SameOrder c where
  order := h'.order.trans h.order
  modules := fun m => (h'.modules m).trans (h.modules m)
  cycles := h'.cycles.trans h.cycles
  kinds := fun s => (h'.kinds s).trans (h.kinds s)
  names := fun s name hs => (h'.names s name (by rwa [h.kinds])).trans (h.names s name hs)

theorem addGlobal (g : Graph) (hs : g.symbols.kind? s = some .global) (name : Bytes) :
    g.SameOrder (g.addGlobal s name) where
  order := rfl
  modules := fun _ => rfl
  cycles := rfl
  kinds := fun r => by
    simp only [Graph.addGlobal, Symbols.kind?, Symbols.enter, Symbols.scope?_modifyScope]
    split
    · rw [Option.map_map]
      rfl
    · rfl
  names := fun r key hr => by
    have hne : s ≠ r := by
      rintro rfl
      exact hr hs
    simp only [Graph.addGlobal, Symbols.lookupIn?, Symbols.enter, Symbols.scope?_modifyScope,
      if_neg hne]
    rfl

end Graph.SameOrder

theorem Linked.sameOrder (h : Linked g g') : g.SameOrder g' where
  order := by rw [h.rest]
  modules := h.module?_plain
  cycles := h.cycles
  kinds := fun s => by rw [Symbols.kind?, Symbols.kind?, Symbols.scope?, Symbols.scope?, h.scopes]
  names := fun s name _ => h.lookupIn? s name

/-- Looking up names leaves a graph built, and its nodes as they are. -/
def lookingUp : Conduct where
  holds := Built
  allows g g' := g'.nodes = g.nodes ∧ g.SameOrder g'
  refl g := ⟨rfl, .refl g⟩
  trans h h' := ⟨h'.1.trans h.1, h.2.trans h'.2⟩

theorem Links.lookingUp {m : StateM Graph α} {post : α → Graph → Prop} (h : Links m post)
    (g : Graph) : lookingUp.Steps g m post := by
  intro hg
  obtain ⟨hl, hg', hpost⟩ := h g hg.linkable
  exact ⟨⟨hl.nodes, hl.sameOrder⟩, hg.linked hl hg', hpost⟩

theorem Graph.var?_addGlobal (g : Graph) (s : ScopeId) (name : Bytes) (v : VarId) :
    (g.addGlobal s name).var? v =
      if v = g.symbols.vars.size then some { name, form := .global } else g.var? v := by
  show ((g.symbols.addVariable _).2.enter s name _).var? v = _
  rw [Symbols.enter, Symbols.var?_modifyScope, Symbols.var?_addVariable]
  rfl

theorem Graph.size_addGlobal (g : Graph) (s : ScopeId) (name : Bytes) :
    (g.addGlobal s name).symbols.vars.size = g.symbols.vars.size + 1 := Symbols.size_addVariable _ _

theorem Graph.var?_addGlobal_old (s : ScopeId) (name : Bytes) (hw : g.var? v = some w) :
    (g.addGlobal s name).var? v = some w := by
  rw [var?_addGlobal, if_neg (Nat.ne_of_lt (lt_of_var? hw)), hw]

theorem Graph.Arranged.addGlobal (hg : g.Arranged) (hs : g.symbols.kind? s = some .global)
    (name : Bytes) : (g.addGlobal s name).Arranged := by
  have hglobal : s = Symbols.globalScope := hg.symbols.onlyGlobal hs
  have hvar : ∀ {v w}, (g.addGlobal s name).var? v = some w →
      w = { name, form := .global } ∨ g.var? v = some w := by
    intro v w hw
    rw [var?_addGlobal] at hw
    split at hw
    · exact .inl (Option.some.inj hw).symm
    · exact .inr hw
  refine ⟨?_, ?_, ?_, ?_, ?_, ?_, hg.sources⟩
  · refine hg.symbols.enter (fun _ => hglobal) fun hmodule => ?_
    rw [hs] at hmodule
    cases hmodule
  · intro v w hw
    rcases hvar hw with rfl | hw
    · rfl
    · exact hg.unnamed hw
  · intro m mod hm
    obtain ⟨hkind, howner⟩ := hg.programs hm
    refine ⟨?_, ?_⟩
    · show ((g.symbols.addVariable _).2.enter s name _).kind? _ = _
      rw [Symbols.kind?_enter]
      exact hkind
    · show ((g.symbols.addVariable _).2.enter s name _).owner? _ = _
      rw [Symbols.owner?_enter]
      exact howner
  · intro m mod v hm hv
    obtain ⟨hlt, honly⟩ := hg.defaultVar hm hv
    refine ⟨(g.size_addGlobal s name).symm ▸ Nat.lt_succ_of_lt hlt, fun r hr => ?_⟩
    rcases Symbols.holds_enter.mp hr with hr | ⟨-, -, hv⟩
    · exact honly r hr
    · exact absurd hlt (hv ▸ Nat.lt_irrefl _)
  · intro k v hk
    obtain ⟨w, hw, hform⟩ := hg.externals hk
    exact ⟨w, var?_addGlobal_old s name hw, hform⟩
  · intro v w source imported hw hform
    rcases hvar hw with rfl | hw
    · cases hform
    · exact hg.registered hw hform

theorem Linkable.addGlobal (hg : Linkable g) (hs : g.symbols.kind? s = some .global) (name : Bytes) :
    Linkable (g.addGlobal s name) := by
  refine hg.withSymbols (hg.arranged.addGlobal hs name) ?_ ?_ ?_
  · intro r key v hv
    simp only [Symbols.lookupIn?, Symbols.enter, Symbols.scope?_modifyScope,
      Symbols.scope?_addVariable] at hv ⊢
    split
    · obtain ⟨scope, hscope, hlookup⟩ := Option.bind_eq_some_iff.mp hv
      rw [hscope, Option.map_some, Option.bind_some, lookup_append, hlookup]
      rfl
    · exact hv
  · rintro v ⟨w, hw, hspace⟩
    exact ⟨w, var?_addGlobal_old s name hw, hspace⟩
  · intro v w merged hw hform
    change (g.addGlobal s name).var? v = some w at hw
    rw [var?_addGlobal] at hw
    split at hw
    · cases hw
      cases hform
    · exact ⟨w, hw, rfl, hform⟩

theorem Graph.Built.addGlobal (hg : g.Built) (hs : g.symbols.kind? s = some .global) (name : Bytes) :
    (g.addGlobal s name).Built := by
  refine hg.withSymbols (hg.linkable.addGlobal hs name) ?_ ?_
  · exact fun hv => (g.size_addGlobal s name).symm ▸ Nat.lt_succ_of_lt hv
  · intro v w hw
    change (g.addGlobal s name).var? v = some w at hw
    rw [var?_addGlobal] at hw
    split at hw
    · cases hw
      exact ⟨⟨rfl, rfl, rfl, rfl, rfl⟩, .inl rfl⟩
    · exact ⟨hg.vars hw, .inr ⟨w, hw, rfl⟩⟩

theorem findVariable_known (name : Bytes) :
    ∀ scopes g, lookingUp.Steps g (findVariable name scopes) Known
  | [], g => pure' fun _ => Known.none g
  | s :: outer, g => by
    refine get_bind fun hg => ?_
    cases hlookup : g.symbols.lookupIn? s name with
    | some v => exact pure' fun _ =>
        Known.some (hg.linkable.arranged.symbols.valid.lookupIn?_lt hlookup)
    | none =>
      have houter : ∀ g', lookingUp.Steps g'
          (if name = Symbols.receiverName then pure none else findVariable name outer) Known :=
        fun g' => ite' (fun _ => pure' fun _ => Known.none g') fun _ =>
          findVariable_known name outer g'
      dsimp only
      split
      · cases (g.symbols.scope? s).bind Scope.module with
        | some m =>
          refine bind' (map' ((traceImport_links m name).lookingUp g)) ?_
          intro found g' _ hfound
          cases found with
          | some v => exact pure' fun _ => hfound
          | none => exact houter g'
        | none => exact houter g
      · rename_i hkind
        refine fun _ => ⟨⟨rfl, .addGlobal g hkind name⟩, hg.addGlobal hkind name, Known.some ?_⟩
        exact (Symbols.size_addVariable _ _).symm ▸ Nat.lt_succ_self _
      · exact findVariable_known name outer g

/-! ## Resolving names -/

/-- Resolving names leaves a graph built, its nodes in their places. -/
def resolving : Conduct where
  holds := Built
  allows g g' := g'.node? = g.node? ∧ g.SameOrder g'
  refl g := ⟨rfl, .refl g⟩
  trans h h' := ⟨h'.1.trans h.1, h.2.trans h'.2⟩

theorem resolving_of_lookingUp {m : StateM Graph α} {post : α → Graph → Prop}
    (h : lookingUp.Steps g m post) : resolving.Steps g m post := by
  intro hg
  obtain ⟨⟨hnodes, horder⟩, hg', hpost⟩ := h hg
  exact ⟨⟨node?_congr hnodes, horder⟩, hg', hpost⟩

@[simp] theorem Graph.node?_setResolution (g : Graph) (n : NodeId) (r : Resolution) :
    (g.setResolution n r).node? = g.node? := by
  funext k
  simp only [node?, record?, setResolution, Array.getElem?_modify]
  split
  · cases g.nodes[k]? <;> rfl
  · rfl

theorem Graph.resolution_setResolution (g : Graph) {n : NodeId} (r : Resolution) (k : NodeId)
    (hn : (g.node? n).isSome = true) :
    (g.setResolution n r).resolution k = if n = k then r else g.resolution k := by
  simp only [resolution, record?, setResolution, Array.getElem?_modify]
  split
  · rename_i heq
    subst heq
    obtain ⟨m, hm⟩ := Option.isSome_iff_exists.mp hn
    obtain ⟨rec, hrec, -⟩ := Option.map_eq_some_iff.mp hm
    rw [show g.nodes[n]? = some rec from hrec]
    rfl
  · rfl

theorem Graph.Built.setResolution (hg : g.Built) {r : Resolution} (hn : Held g.node? n)
    (hr : r ≠ .nothing) (hv : ∀ v, r = .bound v → v < g.symbols.vars.size)
    (haccess : n.isAccess = true)
    (hchildren : ∀ c ∈ n.children, c.isPlain = true ∨ g.resolution c.id ≠ .nothing) :
    (g.setResolution n.id r).Built := by
  have hsome : (g.node? n.id).isSome = true := by rw [hn]; rfl
  have hresolution := fun k => g.resolution_setResolution r k hsome
  have hkeeps : ∀ k, g.resolution k ≠ .nothing →
      (g.setResolution n.id r).resolution k ≠ .nothing := by
    intro k hk
    rw [hresolution]
    split
    · exact hr
    · exact hk
  have hrecord : ∀ k, (g.setResolution n.id r).record? k =
      if n.id = k then (g.record? k).map fun rec => { rec with resolution := r }
      else g.record? k := fun k => Array.getElem?_modify
  refine ⟨?_, hg.linkable.congr rfl rfl rfl rfl, ⟨?_, ?_, ?_, ?_⟩, ?_, hg.vars, hg.modules, hg.tracker,
    hg.needsPass⟩
  · refine hg.placed.of_same (fun k => ?_) fun h => ⟨_, h, rfl⟩
    rw [hrecord]
    split
    · rw [Option.map_map]
      rfl
    · rfl
  · intro v w d hw hd
    rw [node?_setResolution]
    exact hg.named.declarations hw hd
  · intro k m v hm hv
    rw [node?_setResolution] at hm
    exact hg.named.bound hm hv
  · intro k v hk
    rw [hresolution] at hk
    split at hk
    · exact hv v hk
    · exact hg.named.resolved hk
  · intro k m hm hk
    rw [node?_setResolution] at hm
    rw [hresolution] at hk
    by_cases heq : n.id = k
    · rw [← heq, hn] at hm
      cases hm
      exact ⟨haccess, fun c hc => (hchildren c hc).imp_right (hkeeps _)⟩
    · rw [if_neg heq] at hk
      obtain ⟨h1, h2⟩ := hg.named.whole hm hk
      exact ⟨h1, fun c hc => (h2 c hc).imp_right (hkeeps _)⟩
  · intro k rec hrec
    rw [hrecord] at hrec
    split at hrec
    · obtain ⟨rec', hrec', rfl⟩ := Option.map_eq_some_iff.mp hrec
      exact (hg.facts hrec' :)
    · exact hg.facts hrec

/-- A node that refers to a variable is resolved, and the variable may take note of it. -/
theorem bindName_resolves (hn : Held g.node? n) (haccess : n.isAccess = true)
    (hnone : n.children = []) (hv : v < g.symbols.vars.size)
    (hf : ∀ w, w.Untouched → (f w).Untouched ∧ (f w).declarations = w.declarations)
    (hmention : ∀ w, Variable.Mentioned w (f w)) :
    resolving.Steps g (modify fun g => (g.setResolution n.id (.bound v)).modifyVar v f)
      fun _ _ => True := by
  refine modify' fun hg => ⟨⟨node?_setResolution g n.id _, .of_same rfl rfl rfl rfl⟩, ?_, trivial⟩
  have hset : (g.setResolution n.id (.bound v)).Built := by
    refine hg.setResolution hn nofun (fun u hu => ?_) haccess ?_
    · cases hu
      exact hv
    · rw [hnone]
      exact nofun
  exact hset.modifyVar hf (hset.linkable.mention hmention)

theorem resolveIdent_resolves {i : Ident} (hn : Held g.node? (.expr (.ident i))) :
    resolving.Steps g (resolveIdent i) fun _ _ => True := by
  refine get_bind fun _ => ?_
  refine bind' (resolving_of_lookingUp (findVariable_known _ _ g)) fun found g' hnode hfound => ?_
  cases found with
  | none => exact pure' fun _ => trivial
  | some v =>
    exact bindName_resolves (n := .expr (.ident i)) (by rw [hnode.1]; exact hn) rfl rfl (hfound v rfl)
      (fun w hw => ⟨⟨hw.included, hw.reassigned, hw.dependents, hw.requested, hw.passedOn⟩, rfl⟩)
      fun w => w.mentioned_refer _ _

theorem resolveReceiver_resolves {i : Info} {scope : ScopeId}
    (hn : Held g.node? (.expr (.receiver i scope))) :
    resolving.Steps g (resolveReceiver i scope) fun _ _ => True := by
  refine get_bind fun _ => ?_
  refine bind' (resolving_of_lookingUp (findVariable_known _ _ g)) fun found g' hnode hfound => ?_
  cases found with
  | none =>
    refine modify' fun hg => ?_
    split
    · have hl := Linked.warn g' ‹_› (by decide : Code.thisIsUndefined.text ≠ _)
      exact ⟨⟨rfl, (hl _ _).sameOrder⟩,
        hg.linked (hl _ _) (hg.linkable.of_same rfl (List.Subset.refl _)), trivial⟩
    · exact ⟨⟨rfl, .refl g'⟩, hg, trivial⟩
  | some v =>
    refine bindName_resolves (n := .expr (.receiver i scope)) (by rw [hnode.1]; exact hn) rfl rfl
      (hfound v rfl) (fun w hw => ?_) fun w => ?_
    · split
      · rename_i hform
        exact ⟨⟨hw.included, hw.reassigned, hw.dependents, hw.requested, hw.passedOn⟩,
          by simp [Variable.declarations, hform]⟩
      · exact ⟨hw, rfl⟩
    · split
      · rename_i hform
        exact ⟨rfl, rfl, .inl rfl, .inr ⟨isReceiver_iff.mpr ⟨_, hform⟩, rfl⟩⟩
      · exact ⟨rfl, rfl, .inl rfl, .inl rfl⟩

/-- An expression that stands for a namespace is a name, or a property access that stands for one as
a whole. -/
theorem namespaceOf?_some {e : Expr} {m : ModuleId} (h : g.namespaceOf? e = some m) :
    (Node.expr e).isPlain = true ∨ g.resolution e.info.id ≠ .nothing := by
  cases e with
  | ident i => exact .inl rfl
  | member i o k | index i o k =>
    refine .inr fun hnothing => ?_
    rw [namespaceOf?, hnothing] at h
    cases h
  | _ => cases h

theorem resolveMember_resolves {i : Info} {object : Expr} {key : Key} (hid : n.id = i.id)
    (hn : Held g.node? n) (haccess : n.isAccess = true)
    (hchildren : ∀ c ∈ n.children, c = .expr object ∨ (key.isKnown = true → c.isPlain = true)) :
    resolving.Steps g (resolveMember i object key) fun _ _ => True := by
  refine get_bind fun _ => ?_
  cases hspace : g.namespaceOf? object with
  | none => exact pure' fun _ => trivial
  | some m =>
    refine ite' (fun _ => pure' fun _ => trivial) fun hknown => ?_
    have hmember := (Links.lookingUp (fun g => namespaceMember?_links m key g) g).imp
      (Q := fun found g' => g'.nodes = g.nodes ∧ Known found g')
      fun found g' hallows h => ⟨hallows.1, h.2.2⟩
    refine bind' (resolving_of_lookingUp hmember) fun found g' hnode h => ?_
    have hheld : Held g'.node? n := by rw [hnode.1]; exact hn
    have hready : ∀ c ∈ n.children, c.isPlain = true ∨ g'.resolution c.id ≠ .nothing := by
      intro c hc
      rw [resolution_congr h.1]
      rcases hchildren c hc with rfl | hplain
      · exact namespaceOf?_some hspace
      · exact .inl (hplain (by simpa using hknown))
    rw [← hid]
    cases found with
    | some v =>
      refine modify' fun hg => ⟨⟨node?_setResolution g' n.id _, .of_same rfl rfl rfl rfl⟩,
        hg.setResolution hheld nofun (fun u hu => ?_) haccess hready, trivial⟩
      cases hu
      exact h.2 v rfl
    | none =>
      refine modify' fun hg => ?_
      have hg' := hg.setResolution hheld (r := .missing) nofun nofun haccess hready
      dsimp only
      split
      · have hl := Linked.warn (g'.setResolution n.id .missing) ‹_›
          (by decide : Code.missingExport.text ≠ _)
        have hsame : g'.SameOrder (g'.setResolution n.id .missing) := .of_same rfl rfl rfl rfl
        exact ⟨⟨node?_setResolution g' n.id _, hsame.trans (hl _ _).sameOrder⟩,
          hg'.linked (hl _ _) (hg'.linkable.of_same rfl (List.Subset.refl _)), trivial⟩
      · exact ⟨⟨node?_setResolution g' n.id _, .of_same rfl rfl rfl rfl⟩, hg', trivial⟩

theorem resolveNode_resolves (hn : Held g.node? n) :
    resolving.Steps g (resolveNode n) fun _ _ => True := by
  cases n with
  | expr e =>
    cases e with
    | ident i => exact resolveIdent_resolves hn
    | receiver i scope => exact resolveReceiver_resolves hn
    | member i object name =>
      exact resolveMember_resolves rfl hn rfl (by simp)
    | index i object key =>
      refine resolveMember_resolves rfl hn rfl ?_
      simp only [Node.children_index, forall_mem_cons, not_mem_nil, false_implies,
        implies_true, and_true, true_or, true_and]
      refine .inr fun hknown => ?_
      unfold Expr.literalKey? at hknown
      split at hknown
      · rfl
      · rfl
      · cases hknown
    | _ => exact pure' fun _ => trivial
  | _ => exact pure' fun _ => trivial

theorem held_postorder (hc : Covers table) (o : Outline) :
    o.Regular → Held table o.node → ∀ n ∈ o.postorder, Held table n := by
  refine fun ho => regular_induction ho fun top os _ hchildren ih => ?_
  intro htop n hn
  have hpost : ∀ os : List Outline, postorders os = os.flatMap postorder := by
    intro os
    induction os with
    | nil => rfl
    | cons o os ih => simp [postorders, ih]
  rw [postorder, hpost] at hn
  rcases mem_append.mp hn with hn | hn
  · obtain ⟨o, hmem, hn⟩ := mem_flatMap.mp hn
    exact (ih o hmem).2 (hc.child htop (hchildren ▸ mem_map_of_mem hmem)) n hn
  · rw [mem_singleton.mp hn]
    exact htop

section

variable {c : Conduct} (hsame : ∀ {g g'}, c.allows g g' → g'.node? = g.node?)
  (hnode : ∀ {g n}, Held g.node? n → c.Steps g (resolveNode n) fun _ _ => True)
include hsame hnode

theorem resolveAll_steps (l : List Node) : ∀ {g : Graph}, (∀ n ∈ l, Held g.node? n) →
    c.Steps g (l.forM resolveNode) fun _ _ => True := by
  induction l with
  | nil => exact fun _ => pure' fun _ => trivial
  | cons n l ih =>
    intro g h
    refine bind' (hnode (h n mem_cons_self)) fun _ _ hrun _ => ih ?_
    rw [hsame hrun]
    exact fun k hk => h k (mem_cons_of_mem n hk)

theorem resolveModule_steps (m : ModuleId) (hg : g.Placed) :
    c.Steps g (resolveModule m) fun _ _ => True := by
  refine get_bind fun _ => ?_
  cases hmod : g.module? m with
  | none => exact pure' fun _ => trivial
  | some mod =>
    exact resolveAll_steps hsame hnode _ (held_postorder hg.covers _
      ⟨rfl, fun s hs => by cases hs⟩ (hg.held_program hmod))

end

theorem resolveModule_resolves (m : ModuleId) (g : Graph) :
    resolving.Steps g (resolveModule m) fun _ _ => True :=
  fun hg => resolveModule_steps And.left resolveNode_resolves m hg.placed hg

/-! ## Declaring what a module imports and exports -/

/-- A module after some of its statements were read. -/
structure Module.Reads (body : List Stmt) (m m' : Module) : Prop where
  path : m'.path = m.path
  source : m'.source = m.source
  program : m'.program = m.program
  namespaceVar : m'.namespaceVar = m.namespaceVar
  allExportsIncluded : m'.allExportsIncluded = m.allExportsIncluded
  tracedExports : m'.tracedExports = m.tracedExports
  tracedImports : m'.tracedImports = m.tracedImports
  defaultVar : ∀ v, m'.defaultVar = some v → m.defaultVar = some v ∨
    ∃ i e, .exportDefault i v e ∈ body

namespace Module.Reads

variable {body : List Stmt} {a b c : Module}

theorem refl (m : Module) : m.Reads body m := ⟨rfl, rfl, rfl, rfl, rfl, rfl, rfl, fun _ => .inl⟩

theorem trans (h : a.Reads body b) (h' : b.Reads body c) : a.Reads body c where
  path := h'.path.trans h.path
  source := h'.source.trans h.source
  program := h'.program.trans h.program
  namespaceVar := h'.namespaceVar.trans h.namespaceVar
  allExportsIncluded := h'.allExportsIncluded.trans h.allExportsIncluded
  tracedExports := h'.tracedExports.trans h.tracedExports
  tracedImports := h'.tracedImports.trans h.tracedImports
  defaultVar := fun v hv => (h'.defaultVar v hv).elim (h.defaultVar v) .inr

variable (body) in
theorem addDependency (m : Module) (specifier : Bytes) :
    m.Reads body (m.addDependency specifier) := by
  unfold Module.addDependency
  split <;> exact ⟨rfl, rfl, rfl, rfl, rfl, rfl, rfl, fun _ => .inl⟩

theorem addExport {e : LocalExport} (h : m.addExport e = .ok m') : m.Reads body m' := by
  unfold Module.addExport Module.checkNew at h
  split at h
  · cases h
  · cases h
    exact ⟨rfl, rfl, rfl, rfl, rfl, rfl, rfl, fun _ => .inl⟩

theorem addReexport {e : Reexport} (h : m.addReexport e = .ok m') : m.Reads body m' := by
  unfold Module.addReexport Module.checkNew at h
  split at h
  · cases h
  · cases h
    exact ⟨rfl, rfl, rfl, rfl, rfl, rfl, rfl, fun _ => .inl⟩

theorem foldlM {f : Module → α → Except DuplicateExport Module} {l : List α}
    (hf : ∀ x ∈ l, ∀ m m', f m x = .ok m' → m.Reads body m') :
    ∀ {m m' : Module}, l.foldlM f m = .ok m' → m.Reads body m' := by
  induction l with
  | nil => intro m m' h; cases h; exact .refl m
  | cons x l ih =>
    intro m m' h
    obtain ⟨hx, hl⟩ := forall_mem_cons.mp hf
    rw [foldlM_cons] at h
    cases hstep : f m x with
    | error e => rw [hstep] at h; cases h
    | ok m1 =>
      rw [hstep] at h
      exact (hx m m1 hstep).trans (ih hl h)

theorem declareStatement {symbols : Symbols} {s : Stmt} (hs : s ∈ body)
    (h : m.declareStatement symbols s = .ok m') : m.Reads body m' := by
  cases s with
  | importFrom i source specifiers =>
    cases h
    have hadd := addDependency body m source
    exact ⟨hadd.path, hadd.source, hadd.program, hadd.namespaceVar, hadd.allExportsIncluded,
      hadd.tracedExports, hadd.tracedImports, hadd.defaultVar⟩
  | exportAll i source exported =>
    have hadd := addDependency body m source
    simp only [Module.declareStatement] at h
    split at h
    · cases h
      exact ⟨hadd.path, hadd.source, hadd.program, hadd.namespaceVar, hadd.allExportsIncluded,
        hadd.tracedExports, hadd.tracedImports, hadd.defaultVar⟩
    · exact hadd.trans (addReexport h)
  | exportList i source specifiers =>
    simp only [Module.declareStatement] at h
    split at h
    · exact foldlM (fun _ _ _ _ => addExport) h
    · exact (addDependency body m source).trans (foldlM (fun _ _ _ _ => addReexport) h)
  | exportDeclaration i d => exact foldlM (fun _ _ _ _ => addExport) h
  | exportDefault i v e =>
    have hset : m.Reads body { m with defaultVar := some v } :=
      ⟨rfl, rfl, rfl, rfl, rfl, rfl, rfl, fun u hu => .inr ⟨i, e, by cases hu; exact hs⟩⟩
    exact hset.trans (addExport h)
  | _ => cases h; exact .refl m

theorem declare {symbols : Symbols} (h : m.declare symbols = .ok m') :
    m.Reads m.program.body m' := foldlM (fun _ hs _ _ => declareStatement hs) h

end Module.Reads

/-! ## Loading -/

/-- A graph while its modules are loaded: nothing is linked yet. -/
structure Graph.Loading (g : Graph) : Prop extends g.Built where
  namespaceVar : ∀ {m mod}, g.module? m = some mod → mod.namespaceVar = none
  tracedExports : ∀ {m mod}, g.module? m = some mod → mod.tracedExports = []
  tracedImports : ∀ {m mod}, g.module? m = some mod → mod.tracedImports = []
  externals : g.externals = []
  written : ∀ {v w}, g.var? v = some w → w.isDeclared = true ∨ w.isReceiver = true

theorem linkable_of_unlinked (hsymbols : g.symbols.Scoped)
    (hunnamed : ∀ {v w}, g.var? v = some w → w.outputName = none)
    (hprograms : ∀ {m mod}, g.module? m = some mod →
      g.symbols.kind? mod.program.scope = some .module ∧
        g.symbols.owner? mod.program.scope = some m)
    (hdefault : ∀ {m mod v}, g.module? m = some mod → mod.defaultVar = some v →
      g.symbols.OnlyIn v mod.program.scope)
    (hmodules : ∀ {m mod}, g.module? m = some mod → mod.namespaceVar = none ∧
      mod.tracedExports = [] ∧ mod.tracedImports = []) (hexternals : g.externals = [])
    (hvars : ∀ {v w}, g.var? v = some w → w.isDeclared = true ∨ w.isReceiver = true) :
    Linkable g where
  arranged := ⟨hsymbols, hunnamed, hprograms, hdefault,
    fun hk => absurd hk (by simp [hexternals]),
    fun hw hform => absurd (hvars hw) (by simp [isDeclared, isReceiver, hform]),
    fun hk => absurd hk (by simp [hexternals])⟩
  namespaceVar := fun hm hv => by rw [(hmodules hm).1] at hv; cases hv
  tracedExports := fun hm hv => by rw [(hmodules hm).2.1] at hv; cases hv
  tracedImports := fun hm hv => by rw [(hmodules hm).2.2] at hv; cases hv
  namespaces := fun hw hform => absurd (hvars hw) (by
    simp [isDeclared, isReceiver, hform])

/-- What is known of a module's place among the others may change while modules are loaded. -/
theorem Graph.Loading.modifyModule (hg : g.Loading) {m : ModuleId} {f : Module → Module}
    (hf : ∀ mod, (f mod).program = mod.program ∧
      (f mod).defaultVar = mod.defaultVar ∧ (f mod).namespaceVar = mod.namespaceVar ∧
      (f mod).tracedExports = mod.tracedExports ∧ (f mod).tracedImports = mod.tracedImports ∧
      (f mod).allExportsIncluded = mod.allExportsIncluded) : (g.modifyModule m f).Loading := by
  have hmodule : ∀ {k mod}, (g.modifyModule m f).module? k = some mod →
      ∃ mod', g.module? k = some mod' ∧ mod.program = mod'.program ∧
        mod.defaultVar = mod'.defaultVar ∧ mod.namespaceVar = mod'.namespaceVar ∧
        mod.tracedExports = mod'.tracedExports ∧ mod.tracedImports = mod'.tracedImports ∧
        mod.allExportsIncluded = mod'.allExportsIncluded := by
    intro k mod hk
    rw [module?_modifyModule] at hk
    split at hk
    · obtain ⟨mod', hmod', rfl⟩ := Option.map_eq_some_iff.mp hk
      exact ⟨mod', hmod', hf mod'⟩
    · exact ⟨mod, hk, rfl, rfl, rfl, rfl, rfl, rfl⟩
  have hspace : ∀ {k mod}, (g.modifyModule m f).module? k = some mod → mod.namespaceVar = none :=
    fun hk => by
      obtain ⟨mod', hmod', -, -, h, -⟩ := hmodule hk
      exact h.trans (hg.namespaceVar hmod')
  have hexports : ∀ {k mod}, (g.modifyModule m f).module? k = some mod → mod.tracedExports = [] :=
    fun hk => by
      obtain ⟨mod', hmod', -, -, -, h, -⟩ := hmodule hk
      exact h.trans (hg.tracedExports hmod')
  have himports : ∀ {k mod}, (g.modifyModule m f).module? k = some mod → mod.tracedImports = [] :=
    fun hk => by
      obtain ⟨mod', hmod', -, -, -, -, h, -⟩ := hmodule hk
      exact h.trans (hg.tracedImports hmod')
  refine ⟨⟨hg.placed.of_same (fun _ => rfl) fun hk => ?_, ?_, ⟨hg.named.declarations,
    hg.named.bound, hg.named.resolved, hg.named.whole⟩, hg.facts, hg.vars, fun hk => ?_,
    hg.tracker, hg.needsPass⟩, hspace, hexports, himports, hg.externals, hg.written⟩
  · obtain ⟨mod', hmod', h, -⟩ := hmodule hk
    exact ⟨mod', hmod', h.symm⟩
  · have ha := hg.linkable.arranged
    refine linkable_of_unlinked ha.symbols ha.unnamed (fun hk => ?_) (fun hk hv => ?_)
      (fun hk => ⟨hspace hk, hexports hk, himports hk⟩) hg.externals hg.written
    · obtain ⟨mod', hmod', h, -⟩ := hmodule hk
      rw [h]
      exact ha.programs hmod'
    · obtain ⟨mod', hmod', h, hdefault, -⟩ := hmodule hk
      rw [h]
      exact ha.defaultVar hmod' (hdefault.symm.trans hv)
  · obtain ⟨mod', hmod', -, -, -, -, -, h⟩ := hmodule hk
    exact h.trans (hg.modules hmod')

theorem Graph.Loading.of_same (hg : g.Loading) (hrest : g' = { g with
      order := g'.order, entries := g'.entries, externalSources := g'.externalSources,
      diagnostics := g'.diagnostics, log := g'.log }) : g'.Loading := by
  rw [hrest]
  refine ⟨⟨hg.placed.of_same (fun _ => rfl) fun hk => ⟨_, hk, rfl⟩, ?_, ⟨hg.named.declarations,
    hg.named.bound, hg.named.resolved, hg.named.whole⟩, hg.facts, hg.vars, hg.modules,
    hg.tracker, hg.needsPass⟩, hg.namespaceVar, hg.tracedExports, hg.tracedImports, hg.externals,
    hg.written⟩
  have ha := hg.linkable.arranged
  exact linkable_of_unlinked ha.symbols ha.unnamed ha.programs ha.defaultVar
    (fun hk => ⟨hg.namespaceVar hk, hg.tracedExports hk, hg.tracedImports hk⟩) hg.externals
    hg.written

theorem BuildM.bind_ok {β : Type} {m : BuildM α} {f : α → BuildM β} {g'' : Graph} {b : β}
    (h : (m >>= f).run.run g = (.ok b, g'')) :
    ∃ a g', m.run.run g = (.ok a, g') ∧ (f a).run.run g' = (.ok b, g'') := by
  change ExceptT.bindCont f (m.run.run g).1 (m.run.run g).2 = _ at h
  cases hm : m.run.run g with
  | mk r g' =>
    rw [hm] at h
    cases r with
    | ok a => exact ⟨a, g', rfl, h⟩
    | error e => cases h

theorem BuildM.get_ok {f : Graph → BuildM α} {a : α} (h : (get >>= f).run.run g = (.ok a, g')) :
    (f g).run.run g = (.ok a, g') := h

/-- A loop that brings something about for every element, and does not undo it. -/
theorem BuildM.forM_each {R : α → Graph → Prop} {f : α → BuildM PUnit} {l : List α}
    (hf : ∀ x ∈ l, ∀ g g', P g → (f x).run.run g = (.ok ⟨⟩, g') →
      P g' ∧ R x g' ∧ ∀ y, R y g → R y g') :
    ∀ {g g'}, P g → (l.forM f).run.run g = (.ok ⟨⟩, g') →
      P g' ∧ (∀ x ∈ l, R x g') ∧ ∀ y, R y g → R y g' := by
  induction l with
  | nil =>
    intro g g' hg h
    cases h
    exact ⟨hg, by simp, fun _ => id⟩
  | cons x l ih =>
    intro g g' hg h
    obtain ⟨hx, hl⟩ := forall_mem_cons.mp hf
    obtain ⟨_, g1, h1, h2⟩ := BuildM.bind_ok h
    obtain ⟨hg1, hxg1, hkeep1⟩ := hx g g1 hg h1
    obtain ⟨hg', hall, hkeep⟩ := ih hl hg1 h2
    exact ⟨hg', forall_mem_cons.mpr ⟨hkeep x hxg1, hall⟩, fun y hy => hkeep y (hkeep1 y hy)⟩

theorem BuildM.forM_ok {f : α → BuildM PUnit} {l : List α}
    (hf : ∀ x ∈ l, ∀ g g', P g → (f x).run.run g = (.ok ⟨⟩, g') → P g') (hg : P g)
    (h : (l.forM f).run.run g = (.ok ⟨⟩, g')) : P g' :=
  (forM_each (R := fun _ _ => True)
    (fun x hx g g' hg h => ⟨hf x hx g g' hg h, trivial, fun _ => id⟩) hg h).1

structure Graph.Gains (g g' : Graph) (owner : Option ModuleId) (p : Parsed) : Prop where
  nodes : g'.nodes = (g.addProgram p.program p.nextNode owner).nodes
  symbols : g'.symbols = p.symbols
  externals : g'.externals = g.externals
  tracker : g'.tracker = g.tracker
  needsPass : g'.needsPass = g.needsPass

structure Graph.Loaded (g g' : Graph) (p : Parsed) (mod : Module) : Prop extends
    g.Gains g' (some g.modules.size) p where
  modules : ∀ k, g'.module? k = if k = g.modules.size then some mod else g.module? k
  entries : g'.entries = g.entries
  reports : g'.diagnostics.entries = g.diagnostics.entries
  silenced : g'.diagnostics.silenced = g.diagnostics.silenced

theorem loadModule_ok {path source : Bytes} {id : ModuleId}
    (h : (loadModule path source).run.run g = (.ok id, g')) : ∃ p mod,
      parse source (some g.modules.size) (Module.defaultName path) g.symbols
        g.nodes.size = .ok p ∧
      Module.declare p.symbols { path, source, program := p.program } = .ok mod ∧
      id = g.modules.size ∧ g.Loaded g' p mod := by
  replace h := BuildM.get_ok h
  dsimp only at h
  split at h
  · obtain ⟨_, _, hset, h⟩ := BuildM.bind_ok h
    cases h
  · rename_i p hparse
    obtain ⟨_, _, hset, h⟩ := BuildM.bind_ok h
    cases hset
    split at h
    · rename_i mod hdeclare
      obtain ⟨_, _, hmodify, h⟩ := BuildM.bind_ok h
      cases hmodify
      cases h
      refine ⟨p, mod, hparse, hdeclare, rfl, ⟨rfl, rfl, rfl, rfl, rfl⟩, fun k => ?_, rfl, rfl, rfl⟩
      show ((g.modules.push _).modify g.modules.size fun _ => mod)[k]? = _
      rw [Array.getElem?_modify, Array.getElem?_push]
      by_cases hk : k = g.modules.size
      · rw [if_pos hk.symm, if_pos hk, if_pos hk]
        rfl
      · rw [if_neg (Ne.symm hk), if_neg hk, if_neg hk]
        rfl
    · obtain ⟨_, _, hreport, h⟩ := BuildM.bind_ok h
      obtain ⟨_, _, hthrow, h⟩ := BuildM.bind_ok h
      cases hthrow

theorem Fresh.untouched (h : Fresh owner w) : w.Untouched := by
  rw [h.rest]
  exact ⟨rfl, rfl, rfl, rfl, rfl⟩

theorem Redeclared.untouched (h : Redeclared w w') (hw : w.Untouched) : w'.Untouched := by
  rw [h.rest]
  exact ⟨hw.included, hw.reassigned, hw.dependents, hw.requested, hw.passedOn⟩

theorem Redeclared.written (h : Redeclared w w') (hw : w.isDeclared = true ∨ w.isReceiver = true) :
    w'.isDeclared = true ∨ w'.isReceiver = true := by
  rcases h.form with hsame | ⟨kind, ds, init, more, init', -, hform⟩
  · simpa [isDeclared, isReceiver, hsame] using hw
  · exact .inl (by simp [isDeclared, hform])

theorem Program.link_of_mem {p : Program} (hn : n ∈ nodesOf Stmt.nodes p.body) :
    ∃ q, (n, q) ∈ (ofProgram p).links none := by
  have hmem : n ∈ (ofProgram p).preorder := by
    rw [← Multiset.mem_coe, nodes_eq]
    exact Multiset.mem_add.mpr (.inr hn)
  rw [← map_fst_links _ none] at hmem
  obtain ⟨l, hl, rfl⟩ := mem_map.mp hmem
  exact ⟨l.2, hl⟩

theorem Graph.Gains.added {p : Parsed} (h : g.Gains g' owner p)
    (hp : p.Numbered owner g.symbols g.nodes.size) : g.Added g' owner p.program := by
  have hadd := addProgram_added hp
  exact ⟨fun hk => by rw [record?, h.nodes]; exact hadd.old hk,
    fun hk => by rw [record?, h.nodes] at hk; exact hadd.new hk,
    fun hl => by rw [record?, h.nodes]; exact hadd.mem hl, hadd.nodup⟩

/-- A program that is entered keeps a graph as it should be, if the modules it brings along were read
off it. -/
theorem Graph.Loading.gains {p : Parsed} (hg : g.Loading)
    (hp : p.Numbered owner g.symbols g.nodes.size) (h : g.Gains g' owner p)
    (hdefaults : ∀ {i v e}, .exportDefault i v e ∈ p.program.body →
      p.symbols.OnlyIn v p.program.scope)
    (hmodule : ∀ {k mod}, g'.module? k = some mod → g.module? k = some mod ∨
      owner = some k ∧ ∃ path source,
        Module.Reads p.program.body { path, source, program := p.program } mod) : g'.Loading := by
  have hadded := h.added hp
  have hsize : ∀ {v}, v < g.symbols.vars.size → v < g'.symbols.vars.size := by
    intro v hv
    rw [h.symbols]
    exact hp.entered.size_mono hv
  have hvar : ∀ {v w'}, g'.var? v = some w' → Fresh owner w' ∨
      ∃ w, g.var? v = some w ∧ Redeclared w w' := by
    intro v w' hw'
    rw [var?, h.symbols] at hw'
    cases hw : g.var? v with
    | none => exact .inl (hp.entered.new hw' hw)
    | some w =>
      obtain ⟨w'', hw'', hredeclared⟩ := hp.entered.old hw
      rw [hw'] at hw''
      cases hw''
      exact .inr ⟨w, rfl, hredeclared⟩
  -- A node is one of the old graph, or one of the program with nothing resolved.
  have hnode : ∀ {k n}, g'.node? k = some n →
      (g.node? k = some n ∧ g'.resolution k = g.resolution k ∧ k < g.nodes.size) ∨
      (g'.resolution k = .nothing ∧ ∃ q, (n, q) ∈ (ofProgram p.program).links none) := by
    intro k n hk
    obtain ⟨r, hrec, rfl⟩ := Option.map_eq_some_iff.mp hk
    by_cases hlt : k < g.nodes.size
    · refine .inl ⟨?_, ?_, hlt⟩
      · rw [node?, ← hadded.old hlt]; exact hk
      · rw [resolution, hadded.old hlt, resolution]
    · obtain ⟨hrest, -, hmem⟩ := hadded.new hrec (Nat.not_lt.mp hlt)
      refine .inr ⟨?_, _, hmem⟩
      rw [resolution, hrec, hrest]
      rfl
  have hold : ∀ {k n}, g.node? k = some n → g'.node? k = some n := by
    intro k n hk
    obtain ⟨r, hrec, rfl⟩ := Option.map_eq_some_iff.mp hk
    obtain ⟨hlt, -⟩ := Array.getElem?_eq_some_iff.mp hrec
    rw [node?, hadded.old hlt]
    exact hk
  have hresolution : ∀ {k}, g.resolution k ≠ .nothing → g'.resolution k ≠ .nothing := by
    intro k hk
    by_cases hlt : k < g.nodes.size
    · rw [resolution, hadded.old hlt]
      exact hk
    · refine absurd ?_ hk
      rw [resolution, record?, Array.getElem?_eq_none (Nat.not_lt.mp hlt)]
      rfl
  have ha := hg.linkable.arranged
  have hprograms : ∀ {k mod'}, g'.module? k = some mod' →
      g'.symbols.kind? mod'.program.scope = some .module ∧
        g'.symbols.owner? mod'.program.scope = some k := by
    intro k mod' hk
    rw [h.symbols]
    rcases hmodule hk with hk | ⟨howner, _, _, hr⟩
    · obtain ⟨hkind, howner⟩ := ha.programs hk
      obtain ⟨scope, hscope, hkind⟩ := Option.map_eq_some_iff.mp hkind
      rw [Symbols.owner?, hscope] at howner
      obtain ⟨scope', hscope', hkind', -, howner'⟩ := hp.entered.scopes hscope
      rw [Symbols.kind?, Symbols.owner?, hscope']
      exact ⟨congrArg some (hkind'.trans hkind), howner'.trans howner⟩
    · rw [hr.program, ← howner]
      exact ⟨hp.scope, hp.owner⟩
  have hdefault : ∀ {k mod' v}, g'.module? k = some mod' → mod'.defaultVar = some v →
      g'.symbols.OnlyIn v mod'.program.scope := by
    intro k mod' v hk hv
    rw [h.symbols]
    rcases hmodule hk with hk | ⟨-, _, _, hr⟩
    · exact hp.entered.onlyIn (ha.defaultVar hk hv)
    · rcases hr.defaultVar v hv with hv | ⟨i, e, hmem⟩
      · cases hv
      · rw [hr.program]
        exact hdefaults hmem
  have hunlinked : ∀ {k mod'}, g'.module? k = some mod' → mod'.namespaceVar = none ∧
      mod'.tracedExports = [] ∧ mod'.tracedImports = [] := by
    intro k mod' hk
    rcases hmodule hk with hk | ⟨-, _, _, hr⟩
    · exact ⟨hg.namespaceVar hk, hg.tracedExports hk, hg.tracedImports hk⟩
    · exact ⟨hr.namespaceVar, hr.tracedExports, hr.tracedImports⟩
  have hwritten : ∀ {v w}, g'.var? v = some w → w.isDeclared = true ∨ w.isReceiver = true := by
    intro v w' hw'
    rcases hvar hw' with hfresh | ⟨w, hw, hredeclared⟩
    · exact hfresh.form
    · exact hredeclared.written (hg.written hw)
  have hexternals : g'.externals = [] := h.externals.trans hg.externals
  refine ⟨⟨?_, ?_, ⟨?_, ?_, ?_, ?_⟩, ?_, ?_, ?_, h.tracker.trans hg.tracker,
    h.needsPass.trans hg.needsPass⟩, fun hk => (hunlinked hk).1, fun hk => (hunlinked hk).2.1,
    fun hk => (hunlinked hk).2.2, hexternals, hwritten⟩
  · refine hadded.placed hg.placed fun hk => ?_
    rcases hmodule hk with hk | ⟨-, _, _, hr⟩
    · exact .inr ⟨_, hk, rfl⟩
    · exact .inl hr.program
  · refine linkable_of_unlinked ?_ (fun {_ w'} hw' => ?_) hprograms hdefault hunlinked hexternals
      hwritten
    · rw [h.symbols]
      exact hp.entered.keeps ha.symbols
    · rcases hvar hw' with hfresh | ⟨w, hw, hredeclared⟩
      · rw [hfresh.rest]
      · have hsame : w'.outputName = w.outputName := by rw [hredeclared.rest]
        exact hsame.trans (ha.unnamed hw)
  · intro v w' d hw' hd
    have hw'' := hw'
    rw [var?, h.symbols] at hw''
    rcases hp.entered.declarations hw'' hd with ⟨w, hw, hd⟩ | ⟨n, hn, rfl, hdeclares⟩
    · obtain ⟨n, hn, hdeclares⟩ := hg.named.declarations hw hd
      exact ⟨n, hold hn, hdeclares⟩
    · obtain ⟨q, hl⟩ := link_of_mem hn
      exact ⟨n, by rw [node?, (hadded.mem hl).1]; rfl, hdeclares⟩
  · intro k n v hn hv
    rcases hnode hn with ⟨hn, -⟩ | ⟨-, q, hl⟩
    · exact hsize (hg.named.bound hn hv)
    · have hmem : n ∈ (↑(ofProgram p.program).preorder : Multiset Node) := by
        rw [Multiset.mem_coe, ← map_fst_links _ none]
        exact mem_map_of_mem hl
      rw [nodes_eq] at hmem
      rcases Multiset.mem_add.mp hmem with hmem | hmem
      · rw [Multiset.mem_singleton.mp hmem] at hv
        cases hv
      · rw [h.symbols]
        exact hp.bound ha.symbols n hmem v hv
  · intro k v hv
    cases hn : g'.node? k with
    | none =>
      rw [resolution, Option.map_eq_none_iff.mp hn] at hv
      cases hv
    | some n =>
      rcases hnode hn with ⟨-, hsame, -⟩ | ⟨hnothing, -⟩
      · exact hsize (hg.named.resolved (hsame.symm.trans hv))
      · rw [hnothing] at hv
        cases hv
  · intro k n hn hk
    rcases hnode hn with ⟨hn, hsame, -⟩ | ⟨hnothing, -⟩
    · rw [hsame] at hk
      obtain ⟨haccess, hchildren⟩ := hg.named.whole hn hk
      exact ⟨haccess, fun c hc => (hchildren c hc).imp_right hresolution⟩
    · exact absurd hnothing hk
  · intro k r hrec
    by_cases hlt : k < g.nodes.size
    · rw [hadded.old hlt] at hrec
      exact hg.facts hrec
    · rw [(hadded.new hrec (Nat.not_lt.mp hlt)).1]
  · intro v w' hw'
    rcases hvar hw' with hfresh | ⟨w, hw, hredeclared⟩
    · exact hfresh.untouched
    · exact hredeclared.untouched (hg.vars hw)
  · intro k mod' hk
    rcases hmodule hk with hk | ⟨-, _, _, hr⟩
    · exact hg.modules hk
    · exact hr.allExportsIncluded

/-! ## Loading step by step -/

/-- One step of loading: a module is parsed and entered, something is written down about a module,
or reports and orderings change. -/
inductive Graph.Loads (g : Graph) : Graph → Prop
  | entered {g' : Graph} {path source : Bytes} {p : Parsed} {mod : Module} :
    Program.parse source (some g.modules.size) (Module.defaultName path) g.symbols
      g.nodes.size = .ok p →
    Module.declare p.symbols { path, source, program := p.program } = .ok mod →
    g.Loaded g' p mod → g.Loads g'
  | revised (m : ModuleId) {f : Module → Module} : (∀ mod, (f mod).program = mod.program ∧
      (f mod).defaultVar = mod.defaultVar ∧ (f mod).namespaceVar = mod.namespaceVar ∧
      (f mod).tracedExports = mod.tracedExports ∧ (f mod).tracedImports = mod.tracedImports ∧
      (f mod).allExportsIncluded = mod.allExportsIncluded) → g.Loads (g.modifyModule m f)
  | arranged {g' : Graph} : g' = { g with
      order := g'.order, entries := g'.entries, externalSources := g'.externalSources,
      diagnostics := g'.diagnostics, log := g'.log } → g.Loads g'

theorem Graph.Loads.loading (h : g.Loads g') (hg : g.Loading) : g'.Loading := by
  cases h with
  | revised m hf => exact hg.modifyModule hf
  | arranged hrest => exact hg.of_same hrest
  | entered hparse hdeclare hloaded =>
    refine hg.gains (parse_numbered hparse) hloaded.toGains
      (parse_defaults hparse hg.linkable.arranged.symbols) fun {k mod'} hk => ?_
    rw [hloaded.modules] at hk
    split at hk
    · rename_i heq
      cases hk
      exact .inr ⟨congrArg some heq.symm, _, _, Module.Reads.declare hdeclare⟩
    · exact .inl hk

theorem loadDependency_loads {external : List Bytes} {load : Bytes → BuildM ModuleId}
    {id : ModuleId} {path : Bytes} {d : Dependency}
    (hload : ∀ target g t g', (load target).run.run g = (.ok t, g') → ReflTransGen Loads g g')
    (h : (loadDependency files external load id path d).run.run g = (.ok ⟨⟩, g')) :
    ReflTransGen Loads g g' := by
  unfold loadDependency at h
  split at h
  · cases h
    show ReflTransGen Loads g (g.addExternalSource d.specifier)
    unfold addExternalSource
    split
    · exact .refl
    · exact .single (.arranged rfl)
  · split at h
    · obtain ⟨_, _, -, h⟩ := BuildM.bind_ok h
      cases h
    · obtain ⟨t, g1, hrun, h⟩ := BuildM.bind_ok h
      cases h
      exact (hload _ _ _ _ hrun).tail (.revised id fun _ => ⟨rfl, rfl, rfl, rfl, rfl, rfl⟩)

theorem load_loads (files : Files) (external : List Bytes) : ∀ n path g id g',
    (load files external n path).run.run g = (.ok id, g') → ReflTransGen Loads g g'
  | 0, _, _, _, _, h => by cases h
  | n + 1, path, g, id, g', h => by
    replace h := BuildM.get_ok h
    split at h
    · cases h
      exact .refl
    · cases h
    · obtain ⟨id', g1, hload, h⟩ := BuildM.bind_ok h
      obtain ⟨p, mod, hparse, hdeclare, -, hloaded⟩ := loadModule_ok hload
      replace h := BuildM.get_ok h
      obtain ⟨_, g2, hdependencies, h⟩ := BuildM.bind_ok h
      cases h
      exact BuildM.forM_ok (fun d _ _ _ hg hrun => hg.trans (loadDependency_loads
        (load_loads files external n) hrun)) (.single (.entered hparse hdeclare hloaded))
        hdependencies

theorem loadEntry_loads {external : List Bytes} {entry : Bytes}
    (h : (loadEntry files external entry).run.run g = (.ok ⟨⟩, g')) : ReflTransGen Loads g g' := by
  unfold loadEntry at h
  split at h
  · obtain ⟨_, _, -, h⟩ := BuildM.bind_ok h
    cases h
  · obtain ⟨id, g1, hload, h⟩ := BuildM.bind_ok h
    have hsteps := load_loads _ _ _ _ _ _ _ hload
    cases h
    dsimp only
    split
    · exact hsteps
    · have hentry : g1.Loads (g1.modifyModule id fun m => { m with isEntry := true }) :=
        .revised id fun _ => ⟨rfl, rfl, rfl, rfl, rfl, rfl⟩
      exact (hsteps.tail hentry).tail (.arranged rfl)

theorem sortModules_loads (g : Graph) : ReflTransGen Loads g g.sortModules := by
  refine foldlRecOn _ _ (.tail ?_ (.arranged rfl)) fun g' hg' p _ =>
    hg'.tail (.revised p.1 fun _ => ⟨rfl, rfl, rfl, rfl, rfl, rfl⟩)
  exact foldlRecOn _ _ .refl fun g' hg' cycle _ => hg'.tail (.arranged rfl)

/-! ## Builds -/

theorem Graph.Loading.start (o : BuildOptions) : o.start.Loading := by
  have hrecord : ∀ k, o.start.record? k = none := fun _ => rfl
  have hmodule : ∀ m, o.start.module? m = none := fun _ => rfl
  have hvar : ∀ v, o.start.var? v = none := fun _ => rfl
  have hnode : ∀ k, o.start.node? k = none := fun _ => rfl
  have hresolution : ∀ k, o.start.resolution k = .nothing := fun _ => rfl
  refine ⟨⟨⟨?_, ?_, ?_, ?_, ?_, ?_⟩,
    linkable_of_unlinked Symbols.Scoped.empty ?_ ?_ ?_ ?_ rfl ?_, ⟨?_, ?_, ?_, ?_⟩,
    ?_, ?_, ?_, rfl, rfl⟩, ?_, ?_, ?_, rfl, ?_⟩ <;>
    simp [hrecord, hmodule, hvar, hnode, hresolution]

/-- What holds of a graph with nothing in it, and is kept by every step of loading, holds once the
modules are in order. -/
theorem loaded_induction {loaded : Graph}
    (hload : (entries.forM (loadEntry files o.external)).run.run o.start = (.ok ⟨⟩, loaded))
    (hstart : P o.start) (hstep : ∀ {g g'}, g.Loading → P g → g.Loads g' → P g') :
    loaded.sortModules.Loading ∧ P loaded.sortModules := by
  have hloaded : ReflTransGen Loads o.start loaded :=
    BuildM.forM_ok (fun _ _ _ _ hg hrun => hg.trans (loadEntry_loads hrun)) .refl hload
  have hall : ∀ {g}, ReflTransGen Loads o.start g → g.Loading ∧ P g := by
    intro g hsteps
    induction hsteps with
    | refl => exact ⟨Loading.start o, hstart⟩
    | tail _ hlast ih => exact ⟨hlast.loading ih.1, hstep ih.1 ih.2 hlast⟩
  exact hall (hloaded.trans (sortModules_loads loaded))

theorem sorted_loading {loaded : Graph}
    (hload : (entries.forM (loadEntry files o.external)).run.run o.start = (.ok ⟨⟩, loaded)) :
    loaded.sortModules.Loading :=
  (loaded_induction (P := fun _ => True) hload trivial fun _ _ _ => trivial).1

def Graph.BuiltFrom (files : Files) (entries : List Bytes) (o : BuildOptions) (g : Graph) : Prop :=
  (Graph.build files entries o.external).run.run o.start = (.ok (), g)

theorem checkExports_same {m : ModuleId} (h : (checkExports m).run.run g = (.ok ⟨⟩, g')) :
    g' = g := by
  replace h := BuildM.get_ok h
  split at h
  · cases h
    rfl
  · obtain ⟨_, _, -, h⟩ := BuildM.bind_ok h
    cases h

theorem Graph.Built.note (hg : g.Built) (text : String) (attrs : List Log.Attr) :
    (g.note text attrs).Built :=
  ⟨hg.placed.of_same (fun _ => rfl) fun h => ⟨_, h, rfl⟩, hg.linkable.congr rfl rfl rfl rfl,
    ⟨hg.named.declarations, hg.named.bound, hg.named.resolved, hg.named.whole⟩, hg.facts, hg.vars,
    hg.modules, hg.tracker, hg.needsPass⟩

theorem BuildM.forM_lift (f : α → StateM Graph PUnit) (l : List α) (g : Graph) :
    (l.forM fun a => (liftM (f a) : BuildM PUnit)).run.run g = (.ok ⟨⟩, ((l.forM f).run g).2) := by
  induction l generalizing g with
  | nil => rfl
  | cons a l ih => exact ih _

open BuildM

/-- The parts of a build: what was loaded is put into order, and then the names of all modules are
resolved. -/
theorem Graph.BuiltFrom.parts (h : g.BuiltFrom files entries o) :
    ∃ loaded, (entries.forM (loadEntry files o.external)).run.run o.start = (.ok ⟨⟩, loaded) ∧
      ∃ attrs, g = ((loaded.sortModules.order.forM resolveModule).run loaded.sortModules).2.note
        "graph built" attrs := by
  unfold Graph.BuiltFrom build at h
  split at h
  · obtain ⟨_, _, hthrow, h⟩ := bind_ok h
    cases hthrow
  · obtain ⟨_, g1, hload, h⟩ := bind_ok h
    refine ⟨g1, hload, ?_⟩
    obtain ⟨_, g2, hsort, h⟩ := bind_ok h
    cases hsort
    replace h := get_ok h
    obtain ⟨_, g3, hcheck, h⟩ := bind_ok h
    have hg3 : g3 = g1.sortModules := forM_ok (P := (· = g1.sortModules))
      (fun m _ g g' hg hrun => (checkExports_same hrun).trans hg) rfl hcheck
    subst hg3
    replace h := get_ok h
    obtain ⟨_, g4, hresolve, h⟩ := bind_ok h
    have hg4 : ((g1.sortModules.order.forM resolveModule).run g1.sortModules).2 = g4 :=
      congrArg Prod.snd ((forM_lift resolveModule _ _).symm.trans hresolve)
    replace h := get_ok h
    split at h
    · cases h
    · cases h
      exact ⟨_, by rw [hg4]⟩

/-- The stages of a build: what was loaded is put into order, and from then on the modules and their
order stay. -/
theorem Graph.BuiltFrom.stages (h : g.BuiltFrom files entries o) :
    ∃ loaded, (entries.forM (loadEntry files o.external)).run.run o.start = (.ok ⟨⟩, loaded) ∧
      g.Built ∧ loaded.sortModules.SameOrder g := by
  obtain ⟨loaded, hload, attrs, rfl⟩ := h.parts
  obtain ⟨hallows, hbuilt, -⟩ := forM'
    (fun m _ => resolveModule_resolves m) (sorted_loading hload).toBuilt
  exact ⟨loaded, hload, hbuilt.note _ _, hallows.2.trans (.of_same rfl rfl rfl rfl)⟩

theorem Graph.BuiltFrom.built (h : g.BuiltFrom files entries o) : g.Built := by
  obtain ⟨_, -, hbuilt, -⟩ := h.stages
  exact hbuilt

theorem Graph.ofSource_built {source : Bytes} {p : Program} (h : ofSource source = .ok (p, g)) :
    g.Built := by
  unfold ofSource at h
  cases hparse : parse source none (utf8 "_default") Symbols.empty 0 with
  | error e =>
    rw [hparse] at h
    cases h
  | ok parsed =>
    rw [hparse] at h
    cases h
    have hp := parse_numbered hparse
    let g1 : Graph :=
      addProgram { symbols := parsed.symbols } parsed.program parsed.nextNode none
    have hloading : g1.Loading :=
      (Loading.start {}).gains hp ⟨rfl, rfl, rfl, rfl, rfl⟩
        (parse_defaults hparse .empty) fun hk => .inl hk
    obtain ⟨hprogram, -⟩ := (addProgram_added (g := { symbols := parsed.symbols }) hp).mem
      (by rw [ofProgram]; exact mem_cons_self)
    have hheld : Held g1.node? (.program parsed.program) :=
      Option.map_eq_some_iff.mpr ⟨_, hprogram, rfl⟩
    have hall := held_postorder hloading.placed.covers (.ofProgram parsed.program)
      ⟨rfl, fun s hs => by cases hs⟩ hheld
    exact (resolveAll_steps And.left resolveNode_resolves _ hall hloading.toBuilt).2.1

/-- A graph whose names are resolved: one that a build gives, or one with a program outside any
module. -/
inductive Graph.Bound : Graph → Prop
  | modules {files : Files} {entries : List Bytes} {o : BuildOptions} {g : Graph} :
    g.BuiltFrom files entries o → g.Bound
  | program {source : Bytes} {p : Program} {g : Graph} :
    Graph.ofSource source = .ok (p, g) → g.Bound

theorem Graph.Bound.built (h : g.Bound) : g.Built := by
  cases h with
  | modules h => exact h.built
  | program h => exact ofSource_built h

def Graph.ofFiles (files : Files) (entries : List Bytes) (o : BuildOptions) : Graph :=
  ((Graph.build files entries o.external).run.run o.start).2

theorem Graph.builtFrom_ofFiles (files : Files) (entries : List Bytes) (o : BuildOptions)
    (h : ((build files entries o.external).run.run o.start).1.toBool = true) :
    (ofFiles files entries o).BuiltFrom files entries o := by
  unfold Graph.BuiltFrom ofFiles
  generalize (build files entries o.external).run.run o.start = r at h
  obtain ⟨_ | ⟨⟨⟩⟩, g⟩ := r
  · cases h
  · rfl

end Winnow
