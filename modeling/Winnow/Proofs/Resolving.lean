import Winnow.Proofs.ExecutionOrder
import Winnow.Proofs.Nesting

/-!
# Resolving names, step by step

A name is resolved in steps of a few kinds: an import or a member of a namespace is traced, a name
that is declared nowhere gets a variable, a node takes note of what it means and a variable of where
it is mentioned. `Graph.Resolves` says what one step does, and every build takes such steps from the
graph it has put into order to the graph it gives (`Graph.BuiltFrom.resolved`). What one step keeps
holds of every graph that is built.
-/

namespace Winnow

open Winnow.Graph Conduct Relation Steps

variable {g g' : Graph} {n : Node}

/-! ## Scopes stay -/

/-- Scopes and what is declared in them stay. Only the global scope may take more names. -/
structure Symbols.Settled (t t' : Symbols) : Prop where
  size : t'.scopes.size = t.scopes.size
  kinds : ∀ s, t'.kind? s = t.kind? s
  outer : ∀ s, t'.outerOf s = t.outerOf s
  vars : t.vars.size ≤ t'.vars.size
  holds : ∀ {s v}, s ≠ globalScope → (t'.Holds s v ↔ t.Holds s v)
  declares : ∀ {d v}, t'.Declares d v → t.Declares d v

namespace Symbols.Settled

variable {t t' t'' : Symbols}

theorem of_scopes (h : t'.scopes = t.scopes) (hsize : t.vars.size ≤ t'.vars.size)
    (hvars : ∀ {v w' d}, t'.var? v = some w' → d ∈ w'.declarations → t.Declares d v) :
    t.Settled t' where
  size := by rw [h]
  kinds := fun s => by rw [kind?, kind?, scope?, scope?, h]
  outer := fun s => by rw [outerOf, outerOf, scope?, scope?, h]
  vars := hsize
  holds := fun _ => by rw [Holds, Holds, namesOf, namesOf, scope?, scope?, h]
  declares := fun ⟨_, hw', hd⟩ => hvars hw' hd

theorem refl (t : Symbols) : t.Settled t :=
  of_scopes rfl (Nat.le_refl _) fun hw hd => ⟨_, hw, hd⟩

theorem trans (h : t.Settled t') (h' : t'.Settled t'') : t.Settled t'' where
  size := h'.size.trans h.size
  kinds := fun s => (h'.kinds s).trans (h.kinds s)
  outer := fun s => (h'.outer s).trans (h.outer s)
  vars := h.vars.trans h'.vars
  holds := fun hs => (h'.holds hs).trans (h.holds hs)
  declares := fun hd => h.declares (h'.declares hd)

theorem addGlobal (g : Graph) (name : Bytes) :
    g.symbols.Settled (g.addGlobal globalScope name).symbols := by
  have hscope : ∀ s, s ≠ globalScope →
      (g.addGlobal globalScope name).symbols.scope? s = g.symbols.scope? s := by
    intro s hs
    simp only [Graph.addGlobal, enter, scope?_modifyScope, scope?_addVariable]
    rw [if_neg (Ne.symm hs)]
  have hview : ∀ {α : Type} (f : Scope → α), (∀ s ns, f { s with names := ns } = f s) → ∀ s,
      ((g.addGlobal globalScope name).symbols.scope? s).map f = (g.symbols.scope? s).map f := by
    intro α f hf s
    simp only [Graph.addGlobal, enter, scope?_modifyScope]
    split
    · rw [Option.map_map]
      exact congrArg (Option.map · _) (funext fun s => hf s _)
    · rfl
  refine ⟨?_, hview Scope.kind fun _ _ => rfl, fun s => ?_, ?_, fun hs => ?_, ?_⟩
  · simp [Graph.addGlobal]
  · rw [outerOf, outerOf, hview Scope.outer fun _ _ => rfl]
  · exact (g.size_addGlobal _ name).symm ▸ Nat.le_succ _
  · rw [Holds, Holds, namesOf, namesOf, hscope _ hs]
  · rintro d v ⟨w, hw, hd⟩
    rw [show (g.addGlobal globalScope name).symbols.var? v = _ from g.var?_addGlobal _ name v] at hw
    split at hw
    · cases hw
      cases hd
    · exact ⟨w, hw, hd⟩

end Symbols.Settled

/-! ## Meanings -/

namespace Graph

/-- A variable cannot be told by where it stands: if it is declared at all, it stands at the top of a
module or is a global. -/
def Aloft (g : Graph) (v : VarId) : Prop := ∀ s d, g.symbols.Holds s v → g.symbols.Declares d v →
  g.symbols.kind? s = some .module ∨ s = Symbols.globalScope

/-- A node may mean a variable: it reaches the scope where that stands, if there is one. -/
def Means (g : Graph) (n : Node) (v : VarId) : Prop :=
  g.Aloft v ∨ ∃ s, g.symbols.Reaches s n ∧ g.symbols.Holds s v

theorem aloft_of_onTop (hg : Linkable g) {v : VarId} (h : g.OnTop v) : g.Aloft v := by
  have hmodule : ∀ {m mod}, g.module? m = some mod → g.symbols.OnlyIn v mod.program.scope →
      g.Aloft v := fun hmod honly s _ hs _ => by
    rw [honly.2 s hs]
    exact .inl (hg.arranged.programs hmod).1
  have hundeclared : ∀ {w}, g.var? v = some w → w.declarations = [] → g.Aloft v := by
    rintro w hw hnone s d - ⟨w', hw', hd⟩
    rw [show g.symbols.var? v = some w from hw] at hw'
    cases hw'
    rw [hnone] at hd
    cases hd
  rcases h with ⟨m, mod, hmod, ⟨name, hname⟩ | hdefault⟩ | ⟨k, hk⟩ | ⟨w, hw, hspace⟩
  · refine hmodule hmod ⟨hg.arranged.symbols.valid.lookupIn?_lt hname, fun r hr => ?_⟩
    exact hg.arranged.symbols.once hr (Symbols.holds_of_lookupIn? hname)
  · exact hmodule hmod (hg.arranged.defaultVar hmod hdefault)
  · obtain ⟨before, after, hlist, -⟩ := List.lookup_eq_some_iff.mp hk
    obtain ⟨w, hw, hform⟩ := hg.arranged.externals (k := k) (v := v) (by simp [hlist])
    exact hundeclared hw (by simp [Variable.declarations, hform])
  · obtain ⟨merged, hform⟩ := Variable.isNamespace_iff.mp hspace
    exact hundeclared hw (by simp [Variable.declarations, hform])

end Graph

/-! ## Steps -/

/-- One step of resolving names. -/
inductive Graph.Resolves (g : Graph) : Graph → Prop
  | imported (m : ModuleId) (name : Bytes) : g.Resolves ((traceImport m name).run g).2
  | member (m : ModuleId) (key : Bytes) : g.Resolves ((namespaceMember? m key).run g).2
  | global {s : ScopeId} {name : Bytes} : g.symbols.kind? s = some .global →
    g.symbols.lookupIn? s name = none → g.Resolves (g.addGlobal s name)
  | settled {n : Node} {r : Resolution} : Held g.node? n → (∀ v, r = .bound v → g.Means n v) →
    g.Resolves (g.setResolution n.id r)
  | referred (v : VarId) (n : NodeId) (name : Bytes) : g.Resolves (g.addReference v n name)
  | counted (v : VarId) {f : Variable → Variable} :
    (∀ w, f w = w ∨ ∃ n, w.form = .receiver n ∧ f w = { w with form := .receiver (n + 1) }) →
    g.Resolves (g.modifyVar v f)
  | warned (m : ModuleId) {code : Code} (message : Bytes) (position : Nat) :
    code.text ≠ Code.circularDependency.text → g.Resolves (g.warn m code message position)
  | noted (text : String) (attrs : List Log.Attr) : g.Resolves (g.note text attrs)

namespace Graph.Resolves

variable {g g' : Graph}

section

variable (h : g.Resolves g') (hg : Linkable g)

include h hg

theorem linkable : Linkable g' := by
  cases h with
  | imported m name => exact (traceImport_links m name g hg).2.1
  | member m key => exact (namespaceMember?_links m key g hg).2.1
  | global hs hnone => exact hg.addGlobal hs _
  | settled hn hmeans => exact hg.congr rfl rfl rfl rfl
  | referred v n name => exact hg.mention fun w => w.mentioned_refer n name
  | counted v hf =>
    refine hg.mention fun w => ?_
    rcases hf w with hw | ⟨n, hform, hw⟩
    · rw [hw]
      exact ⟨rfl, rfl, .inl rfl, .inl rfl⟩
    · rw [hw]
      exact ⟨rfl, rfl, .inl rfl, .inr ⟨Variable.isReceiver_iff.mpr ⟨n, hform⟩, rfl⟩⟩
  | warned m message position hcode | noted text attrs => exact hg.congr rfl rfl rfl rfl

theorem sameOrder : g.SameOrder g' := by
  cases h with
  | imported m name => exact (traceImport_links m name g hg).1.sameOrder
  | member m key => exact (namespaceMember?_links m key g hg).1.sameOrder
  | global hs hnone => exact .addGlobal g hs _
  | settled hn hmeans | referred v n name | counted v hf => exact .of_same rfl rfl rfl rfl
  | warned m message position hcode => exact (Linked.warn g m hcode message position).sameOrder
  | noted text attrs => exact .of_same rfl rfl rfl rfl

/-- Nodes stay in their places, scopes in theirs and declared variables in both. -/
theorem settles :
    g.symbols.Settled g'.symbols ∧ g'.node? = g.node? := by
  have hlinked : Linked g g' → g.symbols.Settled g'.symbols ∧ g'.node? = g.node? := by
    intro hl
    refine ⟨.of_scopes hl.scopes (Nat.not_lt.mp fun hlt => Nat.lt_irrefl _ (hl.lt hlt))
      fun {v w' d} hw' hd => ?_, node?_congr hl.nodes⟩
    cases hw : g.var? v with
    | some w =>
      rw [show g'.symbols.var? v = some w from hl.vars hw] at hw'
      cases hw'
      exact ⟨_, hw, hd⟩
    | none =>
      rw [(hl.new hw' hw).declarations] at hd
      cases hd
  have hvar : ∀ {v : VarId} {f : Variable → Variable},
      (∀ w, (f w).declarations = w.declarations) → g.symbols.Settled (g.modifyVar v f).symbols := by
    intro v f hf
    refine .of_scopes rfl (Nat.le_of_eq (Symbols.size_modifyVariable _ _ _).symm)
      fun {u w' d} hw' hd => ?_
    change (g.modifyVar v f).var? u = some w' at hw'
    rw [var?_modifyVar] at hw'
    split at hw'
    · obtain ⟨w, hw, rfl⟩ := Option.map_eq_some_iff.mp hw'
      exact ⟨w, hw, hf w ▸ hd⟩
    · exact ⟨w', hw', hd⟩
  cases h with
  | imported m name => exact hlinked (traceImport_links m name g hg).1
  | member m key => exact hlinked (namespaceMember?_links m key g hg).1
  | @global s name hs hnone =>
    cases hg.arranged.symbols.onlyGlobal hs
    exact ⟨.addGlobal g name, rfl⟩
  | settled hn hmeans => exact ⟨.refl _, node?_setResolution g _ _⟩
  | referred v n name => exact ⟨hvar fun w => rfl, rfl⟩
  | counted v hf =>
    refine ⟨hvar fun w => ?_, rfl⟩
    rcases hf w with hw | ⟨n, hform, hw⟩
    · rw [hw]
    · rw [hw]
      simp [Variable.declarations, hform]
  | warned m message position hcode | noted text attrs => exact ⟨.refl _, rfl⟩

end

end Graph.Resolves

/-! ## Runs -/

def stepwise : Conduct where
  holds := Linkable
  allows g g' := ReflTransGen Resolves g g' ∧ g.symbols.Settled g'.symbols ∧ g'.node? = g.node?
  refl _ := ⟨.refl, .refl _, rfl⟩
  trans h h' := ⟨h.1.trans h'.1, h.2.1.trans h'.2.1, h'.2.2.trans h.2.2⟩

theorem stepwise_of_steps (hg : Linkable g) (h : ReflTransGen Resolves g g') :
    stepwise.allows g g' ∧ Linkable g' := by
  induction h with
  | refl => exact ⟨stepwise.refl g, hg⟩
  | tail hsteps hlast ih =>
    obtain ⟨hrun, hg1⟩ := ih
    exact ⟨stepwise.trans hrun ⟨.single hlast, hlast.settles hg1⟩, hlast.linkable hg1⟩

theorem stepwise_modify {f : Graph → Graph} (h : ReflTransGen Resolves g (f g)) :
    stepwise.Steps g (modify f : StateM Graph PUnit) fun _ _ => True :=
  modify' fun hg => ⟨(stepwise_of_steps hg h).1, (stepwise_of_steps hg h).2, trivial⟩

/-- A name means a variable of one of the scopes it is looked up in, unless that stands above. -/
theorem findVariable_stepwise (name : Bytes) :
    ∀ scopes g, stepwise.Steps g (findVariable name scopes) fun found g' =>
      ∀ v, found = some v → g'.Aloft v ∨ ∃ s ∈ scopes, g'.symbols.Holds s v
  | [], _ => pure' fun _ v hv => by cases hv
  | s :: outer, g => by
    refine get_bind fun hg => ?_
    cases hlookup : g.symbols.lookupIn? s name with
    | some v =>
      refine pure' fun _ u hu => .inr ⟨s, List.mem_cons_self, ?_⟩
      cases hu
      exact Symbols.holds_of_lookupIn? hlookup
    | none =>
      have hnext := fun g' => (findVariable_stepwise name outer g').imp
        (Q := fun found g' => ∀ v, found = some v → g'.Aloft v ∨ ∃ r ∈ s :: outer,
          g'.symbols.Holds r v) fun found g'' _ h v hv => (h v hv).imp_right
            fun ⟨r, hr, hholds⟩ => ⟨r, List.mem_cons_of_mem s hr, hholds⟩
      have houter : ∀ g', stepwise.Steps g'
          (if name = Symbols.receiverName then pure none else findVariable name outer)
          fun found g' => ∀ v, found = some v → g'.Aloft v ∨ ∃ r ∈ s :: outer,
            g'.symbols.Holds r v :=
        fun g' => ite' (fun _ => pure' fun _ v hv => by cases hv) fun _ => hnext g'
      dsimp only
      split
      · cases (g.symbols.scope? s).bind Scope.module with
        | some m =>
          have htrace : stepwise.Steps g (traceImport m name) fun found g' =>
              ∀ v, found.bind id = some v → g'.Aloft v := by
            intro hg
            obtain ⟨-, hg', hstands⟩ := traceImport_stands m name g hg
            obtain ⟨hrun, -⟩ := stepwise_of_steps hg (.single (.imported m name))
            exact ⟨hrun, hg', fun v hv => aloft_of_onTop hg' (hstands v hv)⟩
          refine bind' (P := fun found g' => ∀ v, found = some v → g'.Aloft v)
            (map' htrace) fun found g' _ hfound => ?_
          cases found with
          | some v => exact pure' fun _ u hu => .inl (hfound u hu)
          | none => exact houter g'
        | none => exact houter g
      · rename_i hkind
        intro hg
        obtain ⟨hrun, hg'⟩ := stepwise_of_steps hg (.single (.global hkind hlookup))
        have hnew : (g.addGlobal s name).Aloft g.symbols.vars.size := by
          rintro r d - ⟨w, hw, hd⟩
          rw [show (g.addGlobal s name).symbols.var? g.symbols.vars.size = _
            from (g.var?_addGlobal s name _).trans (if_pos rfl)] at hw
          cases hw
          cases hd
        refine ⟨hrun, hg', fun v hv => .inl ?_⟩
        cases hv
        exact hnew
      · exact hnext g

theorem resolveMember_stepwise {i : Info} (hid : n.id = i.id) (object : Expr) (key : Key)
    (hn : Held g.node? n) : stepwise.Steps g (resolveMember i object key) fun _ _ => True := by
  refine get_bind fun _ => ?_
  cases g.namespaceOf? object with
  | none => exact pure' fun _ => trivial
  | some m =>
    refine ite' (fun _ => pure' fun _ => trivial) fun _ => ?_
    have htrace : stepwise.Steps g (namespaceMember? m key) fun found g' =>
        ∀ v, found = some v → g'.Aloft v := by
      intro hg
      obtain ⟨-, hg', hstands⟩ := namespaceMember?_stands m key g hg
      obtain ⟨hrun, -⟩ := stepwise_of_steps hg (.single (.member m key))
      exact ⟨hrun, hg', fun v hv => aloft_of_onTop hg' (hstands v hv)⟩
    refine bind' htrace fun found g' hrun hfound => ?_
    have hn' : Held g'.node? n := by rw [hrun.2.2]; exact hn
    rw [← hid]
    cases found with
    | some v =>
      refine stepwise_modify (.single (.settled hn' fun u hu => .inl ?_))
      cases hu
      exact hfound v rfl
    | none =>
      refine stepwise_modify (.head (.settled (r := .missing) hn' fun u hu => by cases hu) ?_)
      dsimp only
      split
      · exact .single (.warned _ _ _ (by decide))
      · exact .refl

theorem findVariable_means {scope : ScopeId} (hscope : n.scope? = some scope) (name : Bytes)
    (hn : Held g.node? n) :
    stepwise.Steps g (findVariable name (g.symbols.chain scope)) fun found g' =>
      Held g'.node? n ∧ ∀ v, found = some v → g'.Means n v := by
  refine (findVariable_stepwise name (g.symbols.chain scope) g).imp fun found g' hrun h => ?_
  refine ⟨by rw [hrun.2.2]; exact hn, fun v hv => (h v hv).imp_right ?_⟩
  rintro ⟨s, hs, hholds⟩
  refine ⟨s, .inl ⟨scope, hscope, ?_⟩, hholds⟩
  rwa [Symbols.chain_eq, hrun.2.1.outer, ← Symbols.chain_eq]

theorem resolveNode_stepwise (hn : Held g.node? n) :
    stepwise.Steps g (resolveNode n) fun _ _ => True := by
  cases n with
  | expr e =>
    cases e with
    | ident i =>
      refine get_bind fun _ => ?_
      refine bind' (findVariable_means rfl _ hn) fun found g' _ hfound => ?_
      obtain ⟨hn', hmeans⟩ := hfound
      cases found with
      | none => exact pure' fun _ => trivial
      | some v =>
        refine stepwise_modify (.head (.settled hn' fun u hu => ?_) (.single (.referred v _ _)))
        cases hu
        exact hmeans v rfl
    | receiver i scope =>
      refine get_bind fun _ => ?_
      refine bind' (findVariable_means rfl _ hn) fun found g' _ hfound => ?_
      obtain ⟨hn', hmeans⟩ := hfound
      cases found with
      | none =>
        refine stepwise_modify ?_
        split
        · exact .single (.warned _ _ _ (by decide))
        · exact .refl
      | some v =>
        refine stepwise_modify (.head (.settled hn' fun u hu => ?_) (.single (.counted v fun w => ?_)))
        · cases hu
          exact hmeans v rfl
        · split
          · rename_i k hform
            exact .inr ⟨k, hform, rfl⟩
          · exact .inl rfl
    | member i object name =>
      exact resolveMember_stepwise (n := .expr (.member i object name)) rfl object name hn
    | index i object key =>
      exact resolveMember_stepwise (n := .expr (.index i object key)) rfl object _ hn
    | _ => exact pure' fun _ => trivial
  | _ => exact pure' fun _ => trivial

def building : Conduct where
  holds := Built
  allows := ReflTransGen Resolves
  refl _ := .refl
  trans := .trans

theorem resolveModule_building (m : ModuleId) (g : Graph) :
    building.Steps g (resolveModule m) fun _ _ => True := by
  intro hg
  obtain ⟨hsteps, -, -⟩ := resolveModule_steps (c := stepwise) (fun h => h.2.2) resolveNode_stepwise m
    hg.placed hg.linkable
  exact ⟨hsteps.1, (resolveModule_resolves m g hg).2.1, trivial⟩

/-! ## Builds -/

section

variable {files : Files} {entries : List Bytes} {o : BuildOptions} {g : Graph}

/-- From what was put into order to what a build gives, it takes steps that resolve names. -/
theorem Graph.BuiltFrom.resolved (h : g.BuiltFrom files entries o) :
    ∃ loaded, (entries.forM (loadEntry files o.external)).run.run o.start = (.ok ⟨⟩, loaded) ∧
      ReflTransGen Resolves loaded.sortModules g := by
  obtain ⟨loaded, hload, attrs, rfl⟩ := h.parts
  obtain ⟨hsteps, -, -⟩ := forM'
    (fun m _ => resolveModule_building m) (sorted_loading hload).toBuilt
  exact ⟨loaded, hload, hsteps.tail (.noted _ _)⟩

theorem Graph.BuiltFrom.sorted (h : g.BuiltFrom files entries o) :
    ∃ loaded : Graph, loaded.Gathered files entries o ∧ loaded.SortedFrom g := by
  obtain ⟨loaded, hload, -, hsame⟩ := h.stages
  obtain ⟨hloaded, -⟩ := loadEntries_gathers hload
  obtain ⟨hsorted, -⟩ := hloaded.executionOrder
  exact ⟨loaded, hloaded, (sortModules_sortedFrom hsorted.nodup hloaded.quiet).sameOrder hsame⟩

theorem Graph.BuiltFrom.fetched (h : g.BuiltFrom files entries o) :
    g.Fetched files o.external := by
  obtain ⟨loaded, hloaded, hsorted⟩ := h.sorted
  exact hsorted.text.fetched hloaded.toFetched

theorem Graph.Fetched.target {external : List Bytes} (hg : g.Fetched files external) {m t : ModuleId}
    {mod : Module} {specifier : Bytes} (hm : g.module? m = some mod)
    (ht : mod.target? specifier = some t) : (g.module? t).isSome = true := by
  obtain ⟨d, hd, htarget⟩ := Option.bind_eq_some_iff.mp ht
  obtain ⟨-, target, -, hpath⟩ := hg.targets hm (List.mem_of_find?_eq_some hd) htarget
  obtain ⟨mod', hmod', -⟩ := Option.map_eq_some_iff.mp hpath
  rw [hmod']
  rfl

theorem sortModules_fetched {loaded : Graph}
    (hload : (entries.forM (loadEntry files o.external)).run.run o.start = (.ok ⟨⟩, loaded)) :
    loaded.sortModules.Fetched files o.external := by
  obtain ⟨hloaded, -⟩ := loadEntries_gathers hload
  obtain ⟨hsorted, -⟩ := hloaded.executionOrder
  exact (sortModules_sortedFrom hsorted.nodup hloaded.quiet).text.fetched hloaded.toFetched

/-- What holds once the modules are in order, and is kept by every step, holds of what is built. -/
theorem Graph.BuiltFrom.induction {P : Graph → Prop} (h : g.BuiltFrom files entries o)
    (hstart : ∀ loaded,
      (entries.forM (loadEntry files o.external)).run.run o.start = (.ok ⟨⟩, loaded) →
      P loaded.sortModules)
    (hstep : ∀ {g g'}, Linkable g → P g → g.Resolves g' → P g') : P g := by
  obtain ⟨loaded, hload, hsteps⟩ := h.resolved
  have hboth : Linkable g ∧ P g := by
    clear h
    induction hsteps with
    | refl => exact ⟨(sorted_loading hload).linkable, hstart loaded hload⟩
    | tail _ hlast ih => exact ⟨hlast.linkable ih.1, hstep ih.1 ih.2 hlast⟩
  exact hboth.2

end

/-! ## Nodes and their modules -/

/-- Every node belongs to a module and stands in its program. -/
def Graph.Housed (g : Graph) : Prop := ∀ k r, g.record? k = some r → ∃ m mod,
  r.module = some m ∧ g.module? m = some mod ∧ r.node ∈ (Outline.ofProgram mod.program).preorder

theorem Graph.Housed.of_same (hg : g.Housed)
    (hrecords : ∀ k, (g'.record? k).map (fun r => (r.node, r.module)) =
      (g.record? k).map fun r => (r.node, r.module)) (hmodules : ∀ {m mod}, g.module? m = some mod →
      ∃ mod', g'.module? m = some mod' ∧ mod'.program = mod.program) : g'.Housed := by
  intro k r hr
  obtain ⟨r', hr', hnode, hmodule⟩ := exists_of_map_pair (hrecords k) hr
  obtain ⟨m, mod, hm, hmod, hmem⟩ := hg k r' hr'
  obtain ⟨mod', hmod', hprogram⟩ := hmodules hmod
  exact ⟨m, mod', hmodule.symm.trans hm, hmod', by rw [hprogram, ← hnode]; exact hmem⟩

theorem Graph.Loads.housed (h : g.Loads g') (hg : g.Housed) : g'.Housed := by
  cases h with
  | arranged hrest =>
    refine hg.of_same (fun k => ?_) fun hm => ⟨_, ?_, rfl⟩
    · rw [hrest]
      rfl
    · rw [hrest]
      exact hm
  | revised m hf =>
    refine hg.of_same (fun _ => rfl) fun {k mod} hk => ?_
    rw [module?_modifyModule, hk]
    split
    · exact ⟨_, rfl, (hf mod).1⟩
    · exact ⟨_, rfl, rfl⟩
  | @entered _ path source p mod hparse hdeclare hloaded =>
    have hadded := addProgram_added (Program.parse_numbered hparse)
    intro k r hr
    rw [record?, hloaded.nodes] at hr
    by_cases hlt : k < g.nodes.size
    · rw [← record?, hadded.old hlt] at hr
      obtain ⟨m, mod', hm, hmod', hmem⟩ := hg k r hr
      refine ⟨m, mod', hm, ?_, hmem⟩
      rw [hloaded.modules, if_neg, hmod']
      rintro rfl
      exact absurd hmod' (by simp [module?])
    · obtain ⟨hrest, -, hmem⟩ := hadded.new hr (Nat.not_lt.mp hlt)
      refine ⟨g.modules.size, mod, by rw [hrest], by rw [hloaded.modules, if_pos rfl], ?_⟩
      rw [(Module.Reads.declare hdeclare).program, ← Outline.map_fst_links _ none]
      exact List.mem_map_of_mem hmem

theorem Graph.Resolves.housed (h : g.Resolves g') (hlink : Linkable g) (hg : g.Housed) :
    g'.Housed := by
  refine hg.of_same ?_ fun {m mod} hm => ?_
  · cases h with
    | imported m name =>
      intro k
      rw [record?, (traceImport_links m name g hlink).1.nodes, record?]
    | member m key =>
      intro k
      rw [record?, (namespaceMember?_links m key g hlink).1.nodes, record?]
    | @settled n r =>
      intro k
      rw [record?, setResolution, Array.getElem?_modify]
      split
      · rw [Option.map_map]
        rfl
      · rfl
    | _ => exact fun _ => rfl
  · have hplain := (h.sameOrder hlink).modules m
    rw [hm] at hplain
    obtain ⟨mod', hmod', hsame⟩ := Option.map_eq_some_iff.mp hplain
    exact ⟨mod', hmod', (congrArg Module.program hsame :)⟩

theorem Graph.BuiltFrom.housed {files : Files} {entries : List Bytes} {o : BuildOptions}
    (h : g.BuiltFrom files entries o) : g.Housed := by
  refine h.induction (fun loaded hload => ?_) fun hlink hg hstep => hstep.housed hlink hg
  refine (loaded_induction hload ?_ fun _ hg hstep => hstep.housed hg).2
  intro k r hr
  cases hr

end Winnow
