import Winnow.Proofs.Drift
import Winnow.Proofs.Walks

/-!
# What including does to the graph

Including a variable sets flags, and it links further where namespaces ask for their members
(`Includes`). It loses nothing that was found out, and no flag is taken back.
-/

namespace Winnow

open Winnow.Graph Conduct Inclusion Steps

/-- A graph after something was included. -/
structure Includes (g g' : Graph) : Prop extends Evolves g g' where
  facts : ∀ k, g'.facts k = { g.facts k with included := (g'.facts k).included }
  included : ∀ {k}, g.isIncluded k = true → g'.isIncluded k = true
  same : ∀ {v w}, g.var? v = some w →
    ∃ w', g'.var? v = some w' ∧ w' = { w with included := w'.included }
  needsPass : g.needsPass = true → g'.needsPass = true

namespace Includes

variable {g g' g'' : Graph}

theorem refl (g : Graph) : Includes g g where
  toEvolves := .refl g
  facts := fun _ => rfl
  included := id
  same := fun h => ⟨_, h, rfl⟩
  needsPass := id

theorem trans (h : Includes g g') (h' : Includes g' g'') : Includes g g'' where
  toEvolves := h.toEvolves.trans h'.toEvolves
  facts := fun k => by rw [h'.facts k, h.facts k]
  included := fun hk => h'.included (h.included hk)
  same := fun hv => by
    obtain ⟨w', hw', hsame⟩ := h.same hv
    obtain ⟨w'', hw'', hsame'⟩ := h'.same hw'
    exact ⟨w'', hw'', by rw [hsame', hsame]⟩
  needsPass := fun hp => h'.needsPass (h.needsPass hp)

theorem linked (h : Linked g g') : Includes g g' := by
  have hfacts : ∀ k, g'.facts k = g.facts k := fun k => by
    simp [Graph.facts, Graph.record?, h.nodes]
  exact {
    toEvolves := .linked h
    facts := fun k => by rw [hfacts]
    included := fun {k} hk => by rw [isIncluded, hfacts]; exact hk
    same := fun hv => ⟨_, h.vars hv, rfl⟩
    needsPass := by rw [h.rest]; exact id }

theorem markNode (g : Graph) (n : NodeId) : Includes g (g.markNode n) where
  toEvolves := .modifyFacts n _
  facts := fun k => by
    rcases facts_modifyFacts_cases g n (fun f => { f with included := true }) k with h | ⟨-, h⟩
    · rw [Graph.markNode, h]
    · rw [Graph.markNode, h]
  included := fun {k} hk => by
    rcases facts_modifyFacts_cases g n (fun f => { f with included := true }) k with h | ⟨-, h⟩
    · rw [isIncluded, Graph.markNode, h]; exact hk
    · rw [isIncluded, Graph.markNode, h]
  same := fun hv => ⟨_, hv, rfl⟩
  needsPass := id

theorem markVar (g : Graph) (v : VarId) :
    Includes g (g.modifyVar v fun w => { w with included := true }) where
  toEvolves := .modifyVar fun _ => ⟨rfl, fun _ => rfl, id⟩
  facts := fun _ => rfl
  included := id
  same := fun {u w} hu => by
    rw [var?_modifyVar, hu]
    split
    · exact ⟨_, rfl, rfl⟩
    · exact ⟨_, rfl, rfl⟩
  needsPass := id

theorem markExports (g : Graph) (m : ModuleId) :
    Includes g (g.modifyModule m fun mod => { mod with allExportsIncluded := true }) := by
  refine { refl g with
    toEvolves := { Evolves.refl g with
      size := by simp [modifyModule]
      modules := fun {k mod} hk => ?_ } }
  rw [module?_modifyModule, hk]
  split
  · exact ⟨_, rfl, rfl, fun _ => rfl, id, id, id⟩
  · exact ⟨_, rfl, .refl _⟩

theorem request (g : Graph) : Includes g g.requestPass :=
  { refl g with
    toEvolves := { Evolves.refl g with }
    needsPass := fun _ => rfl }

end Includes

/-- Steps that include something in a graph whose numbers stand for something. -/
def including : Conduct where
  holds := Linkable
  allows := Includes
  refl := Includes.refl
  trans := Includes.trans

theorem Links.including {α : Type} {m : StateM Graph α} {post : α → Graph → Prop} {g : Graph}
    (h : LinksFrom g m post) : including.Steps g m post := by
  intro hg
  obtain ⟨hl, hg', hpost⟩ := h hg
  exact ⟨.linked hl, hg', hpost⟩

/-! ## Variables -/

theorem includeUpward_rest : ∀ (k : Nat) (n : NodeId) (g : Graph),
    includeUpward k n g = { g with nodes := (includeUpward k n g).nodes }
  | 0, _, _ => rfl
  | k + 1, n, g => by
    unfold includeUpward
    split
    · rfl
    · dsimp only
      split
      · rename_i parent _
        rw [includeUpward_rest k parent]
        rfl
      · rfl

theorem includeUpward_includes : ∀ (k : Nat) (n : NodeId) (g : Graph),
    Includes g (includeUpward k n g)
  | 0, _, g => .refl g
  | k + 1, n, g => by
    unfold includeUpward
    split
    · exact .refl g
    · dsimp only
      split
      · exact (Includes.markNode g n).trans (includeUpward_includes k _ _)
      · exact .markNode g n

theorem markVariable_including (v : VarId) {g : Graph} (hg : Linkable g) :
    Includes g (markVariable v g) ∧ Linkable (markVariable v g) := by
  have hfold : ∀ (ds : List NodeId) {g : Graph}, Linkable g →
      Includes g (ds.foldl (fun g d => includeUpward g.nodes.size d g) g) ∧
        Linkable (ds.foldl (fun g d => includeUpward g.nodes.size d g) g) := by
    intro ds
    induction ds with
    | nil => exact fun hg => ⟨.refl _, hg⟩
    | cons d ds ih =>
      intro g hg
      have hrest := includeUpward_rest g.nodes.size d g
      obtain ⟨h, hg'⟩ := ih (g := includeUpward g.nodes.size d g)
        (hg.congr (by rw [hrest]) (by rw [hrest]) (by rw [hrest]) (by rw [hrest]))
      exact ⟨(includeUpward_includes _ d g).trans h, hg'⟩
  obtain ⟨h, hg'⟩ := hfold (((g.var? v).map Variable.declarations).getD [])
    (hg.evolve (f := fun w => { w with included := true })
      fun _ => ⟨rfl, fun _ => rfl, id⟩)
  exact ⟨(Includes.markVar g v).trans h, hg'⟩

/-- A conduct allows what including a variable that is wanted does: marking it, taking the exports of
a module along and asking for a pass. Exports are wanted. -/
structure Admits (c : Conduct) (wanted : VarId → Graph → Prop) : Prop where
  links : ∀ {α : Type} {m : StateM Graph α} {post : α → Graph → Prop} {g},
    LinksFrom g m post → c.Steps g m post
  onTop : ∀ {v g}, c.holds g → g.OnTop v → wanted v g
  mark : ∀ {v g}, c.holds g → wanted v g →
    c.holds (markVariable v g) ∧ c.allows g (markVariable v g)
  exports : ∀ m g, c.holds g →
    c.holds (g.modifyModule m fun mod => { mod with allExportsIncluded := true }) ∧
      c.allows g (g.modifyModule m fun mod => { mod with allExportsIncluded := true })
  request : ∀ g, c.holds g → c.holds g.requestPass ∧ c.allows g g.requestPass

section

variable {c : Conduct} {wanted : VarId → Graph → Prop} (hc : Admits c wanted)
include hc

theorem Admits.requestPass (g : Graph) : c.Steps g (modify Graph.requestPass) fun _ _ => True :=
  modify' fun hg => ⟨(hc.request g hg).2, (hc.request g hg).1, trivial⟩

mutual

theorem variableIn_steps : ∀ (n : Nat) (v : VarId) (g : Graph), wanted v g →
    c.Steps g (variableIn n v) fun _ _ => True
  | 0, _, _, _ => pure' fun _ => trivial
  | n + 1, v, g, hv => by
    refine get_bind fun hg => ?_
    cases g.var? v with
    | none => exact pure' fun _ => trivial
    | some w =>
      refine ite' (fun _ => pure' fun _ => trivial) fun _ => ?_
      refine bind' (P := fun _ _ => True) (fun hg => ?_) fun _ g' _ _ => ?_
      · obtain ⟨hg', h⟩ := hc.mark hg hv
        exact ⟨h, hg', trivial⟩
      · split
        · exact bind' (allExportsIn_steps n _ g') fun _ g'' _ _ => hc.requestPass g''
        · exact hc.requestPass g'

theorem allExportsIn_steps : ∀ (n : Nat) (m : ModuleId) (g : Graph),
    c.Steps g (allExportsIn n m) fun _ _ => True
  | 0, _, _ => pure' fun _ => trivial
  | n + 1, m, g => by
    refine get_bind fun hg => ?_
    cases hmod : g.module? m with
    | none => exact pure' fun _ => trivial
    | some mod =>
      refine ite' (fun _ => pure' fun _ => trivial) fun _ => ?_
      have hvariable : ∀ v g, g.OnTop v → c.Steps g (variableIn n v) fun _ _ => True :=
        fun v g hv hg => variableIn_steps n v g (hc.onTop hg hv) hg
      have hexport : ∀ name g, c.Steps g (do
          match ← traceExport m name with
          | some v => variableIn n v
          | none => return) fun _ _ => True := by
        intro name g
        refine bind' (hc.links (traceExport_stands m name g)) fun found g' _ hfound => ?_
        cases found with
        | none => exact pure' fun _ => trivial
        | some v => exact hvariable v g' (hfound v rfl)
      refine bind' (P := fun _ _ => True) (modify' fun hg => ?_) fun _ g' _ _ => ?_
      · obtain ⟨hg', h⟩ := hc.exports m g hg
        exact ⟨h, hg', trivial⟩
      · refine bind' (forM' fun name _ => hexport name)
          fun _ g' _ _ => ?_
        refine get_bind fun _ => forM' fun name _ g => ?_
        split
        · refine bind' (hc.links (externalVariable_links _ _ g)) fun v g' _ hv => ?_
          exact hvariable v g' (.inr (.inl ⟨_, hv⟩))
        · exact hexport name g

end

end

theorem including_admits : Admits including fun _ _ => True where
  links := Links.including
  onTop := fun _ _ => trivial
  mark := fun hg _ => (markVariable_including _ hg).symm
  exports := fun m g hg => by
    refine ⟨hg.modifyModule (fun _ => rfl) fun mod hmod => ?_, .markExports g m⟩
    exact ⟨fun _ hv => hg.namespaceVar hmod hv, fun _ _ hv => hg.tracedExports hmod hv,
      fun _ _ hv => hg.tracedImports hmod hv⟩
  request := fun g hg => ⟨hg.congr rfl rfl rfl rfl, .request g⟩

theorem includeVariable_including (v : VarId) (g : Graph) :
    including.Steps g (Inclusion.includeVariable v) fun _ _ => True :=
  get_bind fun _ => variableIn_steps including_admits _ v g trivial

theorem Graph.Sound.includeVariable {g : Graph} (hg : g.Sound) (v : VarId) :
    Includes g (g.includeVariable v) ∧ (g.includeVariable v).Sound := by
  obtain ⟨h, hg', -⟩ := includeVariable_including v g hg.linkable
  exact ⟨h, hg.evolves h.toEvolves hg'⟩

theorem Graph.Sound.markNode {g : Graph} (hg : g.Sound) (n : NodeId) : (g.markNode n).Sound :=
  hg.evolves (Includes.markNode g n).toEvolves (hg.linkable.congr rfl rfl rfl rfl)

/-! ## Conducts that allow including -/

/-- A conduct of the graphs of one frame that allows them to include something. -/
structure Absorbs (c : Conduct)
    (frame : Places) : Prop where
  holds : c.holds = (drifting frame).holds
  includes : ∀ {g g'}, Includes g g' → c.allows g g'

namespace Absorbs

variable {c : Conduct} {frame : Places}
  (hc : Absorbs c frame) {g g' : Graph}
include hc

theorem sound (hg : c.holds g) : g.Sound := by
  rw [hc.holds] at hg
  exact hg.1

theorem step (hg : c.holds g) (h : Includes g g') (hg' : Linkable g') :
    c.holds g' ∧ c.allows g g' := by
  refine ⟨?_, hc.includes h⟩
  rw [hc.holds] at hg ⊢
  exact ⟨hg.1.evolves h.toEvolves hg', h.frame.trans hg.2⟩

theorem includeVariable (hg : c.holds g) (v : VarId) :
    c.holds (g.includeVariable v) ∧ c.allows g (g.includeVariable v) := by
  obtain ⟨h, hg'⟩ := (hc.sound hg).includeVariable v
  exact hc.step hg h hg'.linkable

theorem admits : Admits c fun _ _ => True where
  links := fun h hg => by
    obtain ⟨hl, hg', hpost⟩ := h (hc.sound hg).linkable
    obtain ⟨h1, h2⟩ := hc.step hg (.linked hl) hg'
    exact ⟨h2, h1, hpost⟩
  onTop := fun _ _ => trivial
  mark := fun hg _ => by
    obtain ⟨hg', h⟩ := including_admits.mark (hc.sound hg).linkable trivial
    exact hc.step hg h hg'
  exports := fun m g hg => by
    obtain ⟨hg', h⟩ := including_admits.exports m g (hc.sound hg).linkable
    exact hc.step hg h hg'
  request := fun g hg => by
    obtain ⟨hg', h⟩ := including_admits.request g (hc.sound hg).linkable
    exact hc.step hg h hg'

theorem link_includeVariable (v : VarId) : c.Keeps (Query.link (Inclusion.includeVariable v)) :=
  keeps fun g => get_bind fun _ => variableIn_steps hc.admits _ v g trivial

theorem marks : Marks c (tableOf frame) fun _ _ => True where
  named := fun hg hg' => by
    rw [hc.holds] at hg hg'
    exact namedVar?_congr (resolution_of_frame (hg'.2.trans hg.2.symm))
  lasts := fun _ _ _ => trivial
  node := fun {n g} _ hg _ _ => by
    obtain ⟨hg', h⟩ := hc.step hg (.markNode g n.id) ((hc.sound hg).markNode n.id).linkable
    exact ⟨hg', h, fun _ _ => trivial⟩
  name := fun {n g v} _ hg _ _ _ => by
    obtain ⟨hg1, h1⟩ := hc.step hg (.markNode g n.id) ((hc.sound hg).markNode n.id).linkable
    obtain ⟨hg2, h2⟩ := hc.includeVariable hg1 v
    exact ⟨hg2, c.trans h1 h2⟩

theorem program {m : ModuleId} {mod : Module} (hg : c.holds g) (hmod : g.module? m = some mod) :
    Held (tableOf frame) (.program mod.program) := by
  rw [hc.holds] at hg
  rw [← hg.2, tableOf_frame]
  exact hg.1.placed.held_program hmod

end Absorbs

end Winnow
