import Winnow.Proofs.Built
import Winnow.Proofs.Losses

/-!
# What the analysis leaves alone

No part of the analysis moves a node, changes what a name refers to or makes another variable of a
variable (`Evolves`). So a graph whose numbers stand for something stays such a graph
(`Graph.Sound`).

Questions learn and lose facts, and they link further, but they include nothing, what was lost stays
lost, and a request for another pass is not withdrawn (`Drifts`). Every question drifts, however
deep it nests (`drifting_answers`).
-/

namespace Winnow

open Winnow.Graph Query Conduct Keeps

variable {g : Graph} {n : NodeId} {v : VarId} {f : Variable → Variable}

/-! ## The frame of a graph -/

/-- Where a node stands and what it refers to: what the analysis never changes. -/
def NodeRecord.place (r : NodeRecord) : Node × Option NodeId × Option ModuleId × Resolution :=
  (r.node, r.parent, r.module, r.resolution)

abbrev Places := Array (Node × Option NodeId × Option ModuleId × Resolution)

namespace Graph

def frame (g : Graph) : Places := g.nodes.map NodeRecord.place

section

variable {g g' : Graph}

theorem frame_eq_iff : g'.frame = g.frame ↔
    ∀ k, (g'.record? k).map NodeRecord.place = (g.record? k).map NodeRecord.place := by
  constructor
  · intro h k
    simpa [frame, record?] using congrArg (·[k]?) h
  · intro h
    refine Array.ext_getElem? fun k => ?_
    simpa [frame, record?] using h k

theorem size_of_frame (h : g'.frame = g.frame) : g'.nodes.size = g.nodes.size := by
  simpa [frame] using congrArg Array.size h

theorem node?_of_frame (h : g'.frame = g.frame) : g'.node? = g.node? := by
  funext k
  have hk := congrArg (Option.map Prod.fst) (frame_eq_iff.mp h k)
  rwa [Option.map_map, Option.map_map] at hk

theorem resolution_of_frame (h : g'.frame = g.frame) : g'.resolution = g.resolution := by
  funext k
  have hk := congrArg (Option.map fun p => p.2.2.2) (frame_eq_iff.mp h k)
  rw [Option.map_map, Option.map_map] at hk
  exact congrArg (Option.getD · .nothing) hk

end

theorem record?_modifyFacts (g : Graph) (n : NodeId) (f : Facts → Facts) (k : NodeId) :
    (g.modifyFacts n f).record? k =
      if n = k then (g.record? k).map fun r => { r with facts := f r.facts } else g.record? k :=
  Array.getElem?_modify

@[simp] theorem frame_modifyFacts (g : Graph) (n : NodeId) (f : Facts → Facts) :
    (g.modifyFacts n f).frame = g.frame := by
  refine frame_eq_iff.mpr fun k => ?_
  rw [record?_modifyFacts]
  split
  · rw [Option.map_map]; rfl
  · rfl

theorem facts_modifyFacts_ne (g : Graph) {k : NodeId} (f : Facts → Facts) (h : n ≠ k) :
    (g.modifyFacts n f).facts k = g.facts k := by
  rw [Graph.facts, record?_modifyFacts, if_neg h]; rfl

theorem facts_modifyFacts_self {m : Node} (hm : g.node? n = some m) (f : Facts → Facts) :
    (g.modifyFacts n f).facts n = f (g.facts n) := by
  obtain ⟨r, hr, -⟩ := Option.map_eq_some_iff.mp hm
  simp only [Graph.facts, record?_modifyFacts, hr]
  rfl

/-- What holds of a change to the facts of every node holds of what is known before and after. -/
theorem facts_modifyFacts_cases (g : Graph) (n : NodeId) (f : Facts → Facts) (k : NodeId) :
    (g.modifyFacts n f).facts k = g.facts k ∨
      n = k ∧ (g.modifyFacts n f).facts k = f (g.facts k) := by
  by_cases h : n = k
  · subst h
    cases hr : g.record? n with
    | none =>
      left
      simp only [Graph.facts, record?_modifyFacts, hr]
      rfl
    | some r =>
      right
      exact ⟨rfl, facts_modifyFacts_self (by rw [node?, hr]; rfl) f⟩
  · exact .inl (facts_modifyFacts_ne g f h)

end Graph

/-! ## Evolving -/

/-- A variable after any part of the analysis. -/
structure Variable.Evolves (w w' : Variable) : Prop where
  rest : w' = { w with
    included := w'.included, reassigned := w'.reassigned, dependents := w'.dependents,
    requested := w'.requested, passedOn := w'.passedOn }
  included : w.included = true → w'.included = true
  reassigned : w.reassigned = true → w'.reassigned = true

namespace Variable.Evolves

variable {w w' : Variable}

theorem refl (w : Variable) : w.Evolves w := ⟨rfl, id, id⟩

section

variable (h : w.Evolves w')

include h

theorem trans {w'' : Variable} (h' : w'.Evolves w'') : w.Evolves w'' :=
  ⟨by rw [h'.rest, h.rest], fun ha => h'.included (h.included ha),
    fun ha => h'.reassigned (h.reassigned ha)⟩

theorem name : w'.name = w.name := by rw [h.rest]

theorem form : w'.form = w.form := by rw [h.rest]

theorem outputName : w'.outputName = w.outputName := by rw [h.rest]

theorem module : w'.module = w.module := by rw [h.rest]

theorem declarations : w'.declarations = w.declarations := by
  simp [Variable.declarations, h.form]

end

end Variable.Evolves

structure Module.Grows (m m' : Module) : Prop where
  plain : m'.plain = m.plain
  allExportsIncluded : m.allExportsIncluded = true → m'.allExportsIncluded = true
  namespaceVar : ∀ {v}, m.namespaceVar = some v → m'.namespaceVar = some v
  tracedExports : ∀ {name found}, m.tracedExports.lookup name = some found →
    m'.tracedExports.lookup name = some found
  tracedImports : ∀ {name found}, m.tracedImports.lookup name = some found →
    m'.tracedImports.lookup name = some found

namespace Module.Grows

theorem refl (m : Module) : m.Grows m := ⟨rfl, id, id, id, id⟩

theorem trans {a b c : Module} (h : a.Grows b) (h' : b.Grows c) : a.Grows c where
  plain := h'.plain.trans h.plain
  allExportsIncluded := fun ha => h'.allExportsIncluded (h.allExportsIncluded ha)
  namespaceVar := fun hv => h'.namespaceVar (h.namespaceVar hv)
  tracedExports := fun hf => h'.tracedExports (h.tracedExports hf)
  tracedImports := fun hf => h'.tracedImports (h.tracedImports hf)

end Module.Grows

theorem Module.Extends.grows {m m' : Module} (h : m.Extends m') : m.Grows m' :=
  ⟨h.plain, fun ha => h.allExportsIncluded.trans ha, h.namespaceVar, h.tracedExports,
    h.tracedImports⟩

/-- A graph after any part of the analysis: nodes keep their places, variables and modules stay
what they are. -/
structure Evolves (g g' : Graph) : Prop where
  frame : g'.frame = g.frame
  vars : ∀ {v w}, g.var? v = some w → ∃ w', g'.var? v = some w' ∧ w.Evolves w'
  new : ∀ {v w'}, g'.var? v = some w' → g.var? v = none →
    ∃ w : Variable, w.Linked ∧ w.Evolves w'
  scopes : g'.symbols.scopes = g.symbols.scopes
  size : g'.modules.size = g.modules.size
  modules : ∀ {m mod}, g.module? m = some mod → ∃ mod', g'.module? m = some mod' ∧ mod.Grows mod'
  externals : ∀ {k v}, g.externals.lookup k = some v → g'.externals.lookup k = some v
  options : g'.options = g.options
  order : g'.order = g.order
  entries : g'.entries = g.entries
  tracker : g'.tracker = g.tracker
  unions : ∀ {n : Nat} {es}, g.unions[n]? = some es → g'.unions[n]? = some es

namespace Evolves

variable {g g' g'' : Graph}

theorem refl (g : Graph) : Evolves g g where
  frame := rfl
  vars := fun h => ⟨_, h, .refl _⟩
  new := fun h hnone => absurd (h.symm.trans hnone) nofun
  scopes := rfl
  size := rfl
  modules := fun h => ⟨_, h, .refl _⟩
  externals := id
  options := rfl
  order := rfl
  entries := rfl
  tracker := rfl
  unions := id

theorem trans (h : Evolves g g') (h' : Evolves g' g'') : Evolves g g'' where
  frame := h'.frame.trans h.frame
  vars := fun hv => by
    obtain ⟨w', hw', hd⟩ := h.vars hv
    obtain ⟨w'', hw'', hd'⟩ := h'.vars hw'
    exact ⟨w'', hw'', hd.trans hd'⟩
  new := fun {v w''} hw'' hnone => by
    cases hv : g'.var? v with
    | none => exact h'.new hw'' hv
    | some w' =>
      obtain ⟨w, hw, hd⟩ := h.new hv hnone
      obtain ⟨_, hv', hd'⟩ := h'.vars hv
      rw [hw''] at hv'
      cases hv'
      exact ⟨w, hw, hd.trans hd'⟩
  scopes := h'.scopes.trans h.scopes
  size := h'.size.trans h.size
  modules := fun hm => by
    obtain ⟨mod', hm', he⟩ := h.modules hm
    obtain ⟨mod'', hm'', he'⟩ := h'.modules hm'
    exact ⟨mod'', hm'', he.trans he'⟩
  externals := fun hv => h'.externals (h.externals hv)
  options := h'.options.trans h.options
  order := h'.order.trans h.order
  entries := h'.entries.trans h.entries
  tracker := h'.tracker.trans h.tracker
  unions := fun ha => h'.unions (h.unions ha)

theorem lt (h : Evolves g g') (hv : v < g.symbols.vars.size) : v < g'.symbols.vars.size := by
  obtain ⟨w, hw⟩ := exists_var? hv
  obtain ⟨w', hw', -⟩ := h.vars hw
  exact lt_of_var? hw'

/-- A variable of the graph after is one of the graph before, or linking made it. -/
theorem var_cases (h : Evolves g g') {w' : Variable} (hw' : g'.var? v = some w') :
    (∃ w, g.var? v = some w ∧ w.Evolves w') ∨ ∃ w : Variable, w.Linked ∧ w.Evolves w' := by
  cases hv : g.var? v with
  | none => exact .inr (h.new hw' hv)
  | some w =>
    obtain ⟨_, hv', hd⟩ := h.vars hv
    rw [hw'] at hv'
    cases hv'
    exact .inl ⟨w, rfl, hd⟩

theorem module_cases (h : Evolves g g') {m : ModuleId} {mod' : Module}
    (hm : g'.module? m = some mod') : ∃ mod, g.module? m = some mod ∧ mod.Grows mod' := by
  cases hmod : g.module? m with
  | none =>
    obtain ⟨hlt, -⟩ := Array.getElem?_eq_some_iff.mp hm
    have hle : g.modules.size ≤ m := by simpa [module?] using hmod
    rw [h.size] at hlt
    exact absurd hlt (Nat.not_lt.mpr hle)
  | some mod =>
    obtain ⟨_, hm', he⟩ := h.modules hmod
    rw [hm] at hm'
    cases hm'
    exact ⟨mod, rfl, he⟩

theorem modifyFacts (n : NodeId) (f : Facts → Facts) : Evolves g (g.modifyFacts n f) :=
  { refl g with frame := frame_modifyFacts g n f }

theorem modifyVar (hf : ∀ w : Variable, w.Evolves (f w)) : Evolves g (g.modifyVar v f) :=
  { refl g with
    vars := fun {u w} hu => by
      rw [var?_modifyVar, hu]
      split
      · exact ⟨_, rfl, hf w⟩
      · exact ⟨_, rfl, .refl w⟩
    new := fun {u w} hw hnone => by
      rw [var?_modifyVar, hnone] at hw
      split at hw <;> cases hw }

theorem linked (h : Linked g g') : Evolves g g' where
  frame := by rw [Graph.frame, Graph.frame, h.nodes]
  vars := fun hv => ⟨_, h.vars hv, .refl _⟩
  new := fun hw hnone => ⟨_, h.new hw hnone, .refl _⟩
  scopes := h.scopes
  size := h.size
  modules := fun hm => by
    obtain ⟨mod', hm', he⟩ := h.modules hm
    exact ⟨mod', hm', he.grows⟩
  externals := h.externals
  options := by rw [h.rest]
  order := by rw [h.rest]
  entries := by rw [h.rest]
  tracker := by rw [h.rest]
  unions := by rw [h.rest]; exact id

end Evolves

/-! ## Graphs whose numbers stand for something -/

/-- Every node is in its place and every number stands for something. -/
structure Graph.Sound (g : Graph) : Prop where
  placed : g.Placed
  linkable : Linkable g
  named : g.Named

theorem Graph.Built.sound (h : g.Built) : g.Sound := ⟨h.placed, h.linkable, h.named⟩

theorem Graph.Sound.evolves {g' : Graph} (hg : g.Sound) (h : Evolves g g') (hg' : Linkable g') :
    g'.Sound := by
  have hnode := node?_of_frame h.frame
  have hresolution := resolution_of_frame h.frame
  refine ⟨?_, hg', ⟨?_, ?_, ?_, ?_⟩⟩
  · refine hg.placed.of_same (fun k => ?_) fun hm => ?_
    · have hk := congrArg (Option.map fun p => (p.1, p.2.1)) (frame_eq_iff.mp h.frame k)
      rwa [Option.map_map, Option.map_map] at hk
    · obtain ⟨mod, hmod, he⟩ := h.module_cases hm
      exact ⟨mod, hmod, (congrArg Module.program he.plain).symm⟩
  · intro v w' d hw' hd
    rcases h.var_cases hw' with ⟨w, hw, hv⟩ | ⟨w, hw, hv⟩
    · rw [hnode]
      exact hg.named.declarations hw (hv.declarations ▸ hd)
    · rw [hv.declarations, hw.declarations] at hd
      cases hd
  · intro k n v hn hv
    exact h.lt (hg.named.bound (hnode ▸ hn) hv)
  · intro k v hv
    exact h.lt (hg.named.resolved (hresolution ▸ hv))
  · intro k n hn hr
    rw [hnode] at hn
    rw [hresolution] at hr ⊢
    exact hg.named.whole hn hr

/-- Numbers stand for something also after a change to what is known of variables. -/
theorem Linkable.evolve (hg : Linkable g) (hf : ∀ w : Variable, w.Evolves (f w)) :
    Linkable (g.modifyVar v f) :=
  hg.modifyVar (fun w _ => .of_form (hf w).outputName (hf w).name (hf w).form) fun w _ hw hform => by
    rw [(hf w).module]
    exact hg.namespaces hw ((hf w).form ▸ hform)

/-! ## Questions drift -/

/-- What is known of a node after questions. -/
structure Facts.Drifts (f f' : Facts) : Prop where
  included : f'.included = f.included
  applied : f.applied = true → f'.applied = true
  forgotten : f.forgotten = true → f'.forgotten = true
  forgottenKeys : f.forgottenKeys ⊆ f'.forgottenKeys

theorem Facts.Drifts.refl (f : Facts) : f.Drifts f := ⟨rfl, id, id, fun _ => id⟩

theorem Facts.Drifts.trans {a b c : Facts} (h : a.Drifts b) (h' : b.Drifts c) : a.Drifts c :=
  ⟨h'.included.trans h.included, fun ha => h'.applied (h.applied ha),
    fun ha => h'.forgotten (h.forgotten ha), fun _ ha => h'.forgottenKeys (h.forgottenKeys ha)⟩

/-- A graph after questions: nothing becomes included, and what was lost stays lost. -/
structure Drifts (g g' : Graph) : Prop extends Evolves g g' where
  facts : ∀ k, (g.facts k).Drifts (g'.facts k)
  varIncluded : ∀ v, g'.isVarIncluded v = g.isVarIncluded v
  exportsIncluded : ∀ {m mod mod'}, g.module? m = some mod → g'.module? m = some mod' →
    mod'.allExportsIncluded = mod.allExportsIncluded
  needsPass : g.needsPass = true → g'.needsPass = true

namespace Drifts

variable {g g' g'' : Graph}

theorem refl (g : Graph) : Drifts g g where
  toEvolves := .refl g
  facts := fun _ => .refl _
  varIncluded := fun _ => rfl
  exportsIncluded := fun h h' => by rw [h] at h'; cases h'; rfl
  needsPass := id

theorem trans (h : Drifts g g') (h' : Drifts g' g'') : Drifts g g'' where
  toEvolves := h.toEvolves.trans h'.toEvolves
  facts := fun k => (h.facts k).trans (h'.facts k)
  varIncluded := fun v => (h'.varIncluded v).trans (h.varIncluded v)
  exportsIncluded := fun hm hm'' => by
    obtain ⟨mod', hm', -⟩ := h.modules hm
    exact (h'.exportsIncluded hm' hm'').trans (h.exportsIncluded hm hm')
  needsPass := fun ha => h'.needsPass (h.needsPass ha)

theorem modifyFacts {f : Facts → Facts} (hf : ∀ x : Facts, x.Drifts (f x)) :
    Drifts g (g.modifyFacts n f) :=
  { refl g with
    toEvolves := .modifyFacts n f
    facts := fun k => by
      rcases facts_modifyFacts_cases g n f k with h | ⟨-, h⟩
      · rw [h]; exact .refl _
      · rw [h]; exact hf _ }

theorem modifyVar (hf : ∀ w : Variable, w.Evolves (f w))
    (hincluded : ∀ w, (f w).included = w.included) : Drifts g (g.modifyVar v f) :=
  { refl g with
    toEvolves := .modifyVar hf
    varIncluded := fun u => by
      simp only [isVarIncluded, var?_modifyVar]
      split
      · rw [Option.map_map, show Variable.included ∘ f = Variable.included from funext hincluded]
      · rfl }

theorem linked (h : Linked g g') : Drifts g g' where
  toEvolves := .linked h
  facts := fun k => by
    rw [show g'.facts k = g.facts k by simp [Graph.facts, Graph.record?, h.nodes]]
    exact .refl _
  varIncluded := fun v => by
    cases hv : g.var? v with
    | some w => simp [isVarIncluded, hv, h.vars hv]
    | none =>
      cases hv' : g'.var? v with
      | none => simp [isVarIncluded, hv, hv']
      | some w =>
        simp only [isVarIncluded, hv, hv', Option.map_some, (h.new hv' hv).untouched.included]
        rfl
  exportsIncluded := fun hm hm' => by
    obtain ⟨_, hm'', he⟩ := h.modules hm
    rw [hm'] at hm''
    cases hm''
    exact he.allExportsIncluded
  needsPass := by rw [h.rest]; exact id

end Drifts

/-- Where every node has its place in a frame, questions drift. -/
def drifting (frame : Places) : Conduct where
  holds g := g.Sound ∧ g.frame = frame
  allows := Drifts
  refl := Drifts.refl
  trans := Drifts.trans

section

variable {frame : Places} {q : Queries}

theorem drifting_step {g' : Graph} (hg : (drifting frame).holds g) (h : Drifts g g')
    (hg' : Linkable g') : (drifting frame).holds g' ∧ (drifting frame).allows g g' :=
  ⟨⟨hg.1.evolves h.toEvolves hg', h.frame.trans hg.2⟩, h⟩

theorem holds_modifyFacts (hg : (drifting frame).holds g) (n : NodeId) (f : Facts → Facts) :
    (drifting frame).holds (g.modifyFacts n f) :=
  ⟨hg.1.evolves (.modifyFacts n f) (hg.1.linkable.congr rfl rfl rfl rfl),
    (frame_modifyFacts g n f).trans hg.2⟩

theorem modifyFacts_drifts (n : NodeId) {f : Facts → Facts} (hf : ∀ x : Facts, x.Drifts (f x)) :
    (drifting frame).Keeps (modifyFacts n f) :=
  fun _ => From.modify fun hg =>
    drifting_step hg (.modifyFacts hf) (hg.1.linkable.congr rfl rfl rfl rfl)

theorem modifyVar_drifts (v : VarId) (hf : ∀ w : Variable, w.Evolves (f w))
    (hincluded : ∀ w, (f w).included = w.included) :
    (drifting frame).Keeps (modify fun g => g.modifyVar v f) :=
  fun _ => From.modify fun hg =>
    drifting_step hg (.modifyVar hf hincluded) (hg.1.linkable.evolve hf)

theorem link_drifts {α : Type} {m : StateM Graph α} {post : α → Graph → Prop}
    (h : Links m post) : (drifting frame).Keeps (link m) := by
  refine Steps.keeps (P := fun _ _ => True) fun g hg => ?_
  obtain ⟨hl, hg', -⟩ := h g hg.1.linkable
  obtain ⟨h1, h2⟩ := drifting_step hg (.linked hl) hg'
  exact ⟨h2, h1, trivial⟩

theorem Drifts.request (g : Graph) : Drifts g { g with needsPass := true } :=
  { Drifts.refl g with needsPass := fun _ => rfl }

theorem newUnion_drifts (es : List Entity) : (drifting frame).Keeps (newUnion es) := by
  refine get_bind fun g _ => From.bind_run (set_run _) (fun hg => ?_) (pure' _ _)
  refine drifting_step hg ?_ (hg.1.linkable.congr rfl rfl rfl rfl)
  exact { Drifts.refl g with
    unions := fun {n es'} h => by
      obtain ⟨hlt, -⟩ := Array.getElem?_eq_some_iff.mp h
      rw [Array.getElem?_push_lt hlt, ← h, Array.getElem?_eq_getElem hlt] }

theorem holds_tracker (hg : (drifting frame).holds g) (t : Tracker Entity) :
    (drifting frame).holds { g with tracker := t } :=
  ⟨⟨hg.1.placed.of_same (fun _ => rfl) fun h => ⟨_, h, rfl⟩, hg.1.linkable.congr rfl rfl rfl rfl,
    hg.1.named.declarations, hg.1.named.bound, hg.1.named.resolved, hg.1.named.whole⟩, hg.2⟩

/-- What happens while a question is in flight drifts, if the question leaves again. -/
theorem drifting_tracks : Tracks (drifting frame) where
  holds := fun t hg => holds_tracker hg t
  tracker := fun h => h.tracker
  within := fun h => { h with tracker := rfl }

def tableOf (frame : Places) (k : NodeId) :
    Option Node := (frame[k]?).map Prod.fst

theorem tableOf_frame (g : Graph) : tableOf g.frame = g.node? := by
  funext k
  simp only [tableOf, Graph.frame, Array.getElem?_map, Option.map_map]
  rfl

theorem held_node? (hg : (drifting frame).holds g) {m : Node} (hm : Held (tableOf frame) m) :
    g.node? m.id = some m := by
  rw [← tableOf_frame, hg.2]
  exact hm

theorem drifting_rules (hc : Covers (tableOf frame)) : Rules (drifting frame) (tableOf frame) where
  roads := .all fun _ => trivial
  same := fun g hg => by rw [← hg.2, tableOf_frame]
  covers := hc
  member := fun m key => link_drifts (namespaceMember?_links m key)
  tracks := drifting_tracks
  addVarDependent := fun v _ => modifyVar_drifts v (fun _ => ⟨rfl, id, id⟩) fun _ => rfl
  addDependent := fun n _ => modifyFacts_drifts n fun _ => ⟨rfl, id, id, fun _ => id⟩
  addKeyDependent := fun n key o => by
    cases o with
    | none => exact pure' _
    | some o => exact modifyFacts_drifts n fun _ => ⟨rfl, id, id, fun _ => id⟩
  newUnion := newUnion_drifts
  applied := fun n => modifyFacts_drifts n fun _ => ⟨rfl, fun _ => rfl, id, fun _ => id⟩

/-! ## Every question drifts -/

theorem branchOf_drifts (hq : Asks (drifting frame) q) (id : NodeId) (t : Expr)
    (choose : Value → Option Bool) : (drifting frame).Keeps (branchOf q id t choose) := by
  have hset : ∀ b, (drifting frame).Keeps (modifyFacts id fun f => { f with branch := b }) :=
    fun _ => modifyFacts_drifts id fun _ => ⟨rfl, fun h => h, fun h => h, fun _ h => h⟩
  refine get_unless fun g => ?_
  refine bind' (hset _) fun _ => ?_
  refine bind' (drifting_tracks.onBehalfOf _ (hq.literal _ _ _)) fun value => ?_
  cases choose value with
  | none => exact pure' _
  | some b => cases b <;> exact bind' (hset _) fun _ => read_keeps _

theorem returnOf_drifts (hq : Asks (drifting frame) q) (i : Info) (isNew : Bool) (callee : Expr)
    (as : List Expr) : (drifting frame).Keeps (returnOf q i isNew callee as) := by
  have hset : ∀ e, (drifting frame).Keeps (modifyFacts i.id fun f => { f with returned := e }) :=
    fun _ => modifyFacts_drifts i.id fun _ => ⟨rfl, id, id, fun _ => id⟩
  refine get_bind fun g _ => ?_
  cases (g.facts i.id).returned with
  | some e => exact pure' _ g
  | none =>
    refine bind' (hset _) (fun _ => ?_) g
    refine bind' (callInteraction_keeps _ _ _ _) fun _ => ?_
    refine bind' (hq.returned _ _ _ _) fun _ => ?_
    exact bind' (hset _) fun _ => pure' _

theorem finds_drifts (hq : Asks (drifting frame) q) :
    Finds (drifting frame) (tableOf frame) q where
  toAsks := hq
  branchOf := fun _ t choose _ _ => branchOf_drifts hq _ t choose
  returnOf := fun i isNew callee as _ => returnOf_drifts hq i isNew callee as

theorem Facts.Loses.drifts {f f' : Facts} (h : f.Loses f') : f.Drifts f' := by
  cases h with
  | forgotten => exact ⟨rfl, id, fun _ => rfl, fun _ => id⟩
  | forgottenKey key => exact ⟨rfl, id, id, List.subset_append_left _ _⟩
  | _ => exact ⟨rfl, id, id, fun _ => id⟩

theorem Variable.Loses.evolves {w w' : Variable} (h : w.Loses w') :
    w.Evolves w' ∧ w'.included = w.included := by
  cases h with
  | reassigned => exact ⟨⟨rfl, id, fun _ => rfl⟩, rfl⟩
  | _ => exact ⟨⟨rfl, id, id⟩, rfl⟩

theorem request_drifts (asked : Graph → Bool) :
    (drifting frame).Keeps (modify fun g => if asked g then g.requestPass else g) := by
  refine fun g => From.modify fun hg => ?_
  split
  · exact drifting_step hg (.request g) (hg.1.linkable.congr rfl rfl rfl rfl)
  · exact ⟨hg, Drifts.refl g⟩

theorem drifting_losesAt (v : VarId) : LosesAt (drifting frame) v := fun hf =>
  modifyVar_drifts v (fun w => (hf w).evolves.1) fun w => (hf w).evolves.2

theorem drifting_losses : Losses (drifting frame) (tableOf frame) where
  facts := fun n _ hf => modifyFacts_drifts n fun x => (hf x).drifts
  dependents := fun v => drifting_losesAt v .dependents
  var := drifting_losesAt
  request := request_drifts
  branch := fun _ hrest =>
    bind' (modifyFacts_drifts _ fun _ => ⟨rfl, id, id, fun _ => id⟩)
      fun _ => bind' hrest fun _ => request_drifts _
  observer := fun _ g => From.modify fun hg =>
    drifting_step hg { Drifts.refl g with } (hg.1.linkable.congr rfl rfl rfl rfl)

theorem stage_drifts (hc : Covers (tableOf frame))
    (hq : Answers (drifting frame) (tableOf frame) (fun _ => Drifts) q) :
    Stage (drifting frame) (tableOf frame) (fun _ => Drifts) q :=
  drifting_losses.stage (drifting_rules hc) (finds_drifts hq.toAsks) hq

theorem drifting_answers (hc : Covers (tableOf frame)) (n : Nat) :
    Answers (drifting frame) (tableOf frame) (fun _ => Drifts) (Queries.ofDepth n) :=
  (drifting_rules hc).answers n (fun _ _ => stage_drifts hc) n (Nat.le_refl n)

end

end Winnow
