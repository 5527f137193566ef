import Mathlib.Data.List.Basic
import Mathlib.Logic.Relation
import Winnow.Graph.Exports
import Winnow.Proofs.Arrangement
import Winnow.Proofs.Runs

/-!
# What linking does to the graph

Tracing imports and exports writes down what it finds and makes variables for namespaces and for
outside sources, and changes nothing else (`Linked`). What is found is a variable at the top of some
module, under a name that the module offers, as long as everything the graph refers to is one of its
variables (`Linkable`).
-/

namespace Winnow

open Winnow.Graph Conduct Relation Winnow.Module List

variable {g g' : Graph} {m' mod : Module} {name : Bytes} {l : List (Bytes × Option VarId)}
  {f : Module → Module} {m : ModuleId} {n : Nat} {v : VarId} {w : Variable}

/-! ## Modules -/

/-- A module without what is written down about it after it was loaded. -/
def Module.plain (m : Module) : Module :=
  { m with
    namespaceVar := none, allExportsIncluded := false, tracedExports := [], tracedImports := [],
    conflicts := [] }

structure Module.Extends (m m' : Module) : Prop where
  plain : m'.plain = m.plain
  allExportsIncluded : m'.allExportsIncluded = m.allExportsIncluded
  namespaceVar : ∀ {v}, m.namespaceVar = some v → m'.namespaceVar = some v
  tracedExports : ∀ {name found}, m.tracedExports.lookup name = some found →
    m'.tracedExports.lookup name = some found
  tracedImports : ∀ {name found}, m.tracedImports.lookup name = some found →
    m'.tracedImports.lookup name = some found

namespace Module.Extends

theorem refl (m : Module) : m.Extends m := ⟨rfl, rfl, id, id, id⟩

theorem trans {a b c : Module} (h : a.Extends b) (h' : b.Extends c) : a.Extends c where
  plain := h'.plain.trans h.plain
  allExportsIncluded := h'.allExportsIncluded.trans h.allExportsIncluded
  namespaceVar := fun hv => h'.namespaceVar (h.namespaceVar hv)
  tracedExports := fun hf => h'.tracedExports (h.tracedExports hf)
  tracedImports := fun hf => h'.tracedImports (h.tracedImports hf)

end Module.Extends

namespace Module

theorem exportNames_congr {m : Module} (h : m'.plain = m.plain) : m'.exportNames = m.exportNames :=
  show m'.plain.exportNames = m.plain.exportNames by rw [h]

theorem starSources_congr {m : Module} (h : m'.plain = m.plain) :
    m'.starSources = m.starSources := show m'.plain.starSources = m.plain.starSources by rw [h]

theorem target?_congr {m : Module} (h : m'.plain = m.plain) : m'.target? = m.target? :=
  show m'.plain.target? = m.plain.target? by rw [h]

end Module

namespace Graph

@[simp] theorem module?_modifyModule (g : Graph) (m k : ModuleId) (f : Module → Module) :
    (g.modifyModule m f).module? k = if m = k then (g.module? k).map f else g.module? k := by
  simp [module?, modifyModule, Array.getElem?_modify]

@[simp] theorem var?_modifyModule (g : Graph) (m : ModuleId) (f : Module → Module) (v : VarId) :
    (g.modifyModule m f).var? v = g.var? v := rfl

@[simp] theorem var?_modifyVar (g : Graph) (v u : VarId) (f : Variable → Variable) :
    (g.modifyVar v f).var? u = if v = u then (g.var? u).map f else g.var? u :=
  Symbols.var?_modifyVariable _ _ _ _

@[simp] theorem var?_addVariable (g : Graph) (w : Variable) (u : VarId) :
    (g.addVariable w).2.var? u = if u = g.symbols.vars.size then some w else g.var? u :=
  Symbols.var?_addVariable _ _ _

theorem var?_size (g : Graph) : g.var? g.symbols.vars.size = none :=
  Symbols.var?_eq_none_iff.mpr (Nat.le_refl _)

theorem lt_of_var? (h : g.var? v = some w) : v < g.symbols.vars.size := Symbols.lt_of_var? h

theorem exists_var? (h : v < g.symbols.vars.size) :
    ∃ w, g.var? v = some w := Option.isSome_iff_exists.mp (Symbols.var?_isSome_iff.mpr h)

end Graph

/-! ## Reports of cycles -/

def Diagnostics.cycles (ds : Diagnostics) : List Diagnostic :=
  ds.entries.filter fun d => d.code = Code.circularDependency.text

theorem Diagnostics.cycles_add (ds : Diagnostics) {d : Diagnostic}
    (h : d.code ≠ Code.circularDependency.text) : (ds.add d).cycles = ds.cycles := by
  rw [Diagnostics.add]
  split
  · rfl
  · rw [Diagnostics.cycles, filter_append, filter_cons_of_neg (by simpa using h),
      filter_nil, append_nil, Diagnostics.cycles]

theorem Diagnostics.cycles_report (ds : Diagnostics) (severity : Severity)
    (file message : Bytes) (offset : Int) {code : Code}
    (h : code.text ≠ Code.circularDependency.text) :
    (ds.report severity file code.text message offset).cycles = ds.cycles :=
  ds.cycles_add h

/-! ## Linked graphs -/

/-- A variable as linking makes it: for an export of an outside source, or for the namespace of a
module. -/
structure Variable.Linked (w : Variable) : Prop where
  rest : w = { name := w.name, form := w.form, module := w.module }
  form : (∃ source imported, w.form = .external source imported) ∨ w.isNamespace = true

/-- A graph after further linking: the variables there were are as before, and the modules know
more. -/
structure Linked (g g' : Graph) : Prop where
  rest : g' = { g with
    symbols := g'.symbols, modules := g'.modules, externalSources := g'.externalSources,
    externals := g'.externals, diagnostics := g'.diagnostics }
  scopes : g'.symbols.scopes = g.symbols.scopes
  vars : ∀ {v w}, g.var? v = some w → g'.var? v = some w
  new : ∀ {v w}, g'.var? v = some w → g.var? v = none → w.Linked
  size : g'.modules.size = g.modules.size
  modules : ∀ {m mod}, g.module? m = some mod → ∃ mod', g'.module? m = some mod' ∧ mod.Extends mod'
  externals : ∀ {k v}, g.externals.lookup k = some v → g'.externals.lookup k = some v
  cycles : g'.diagnostics.cycles = g.diagnostics.cycles

namespace Linked

variable {g g' g'' : Graph}

theorem refl (g : Graph) : Linked g g where
  rest := rfl
  scopes := rfl
  vars := id
  new := fun h hnone => by rw [h] at hnone; cases hnone
  size := rfl
  modules := fun h => ⟨_, h, .refl _⟩
  externals := id
  cycles := rfl

section

variable (h : Linked g g')

include h

theorem trans (h' : Linked g' g'') : Linked g g'' where
  rest := by rw [h'.rest, h.rest]
  scopes := h'.scopes.trans h.scopes
  vars := fun hv => h'.vars (h.vars hv)
  new := fun {v w} hw hnone => by
    cases hw' : g'.var? v with
    | none => exact h'.new hw hw'
    | some w' =>
      rw [h'.vars hw'] at hw
      cases hw
      exact h.new hw' hnone
  size := h'.size.trans h.size
  modules := fun hm => by
    obtain ⟨mod', hm', he⟩ := h.modules hm
    obtain ⟨mod'', hm'', he'⟩ := h'.modules hm'
    exact ⟨mod'', hm'', he.trans he'⟩
  externals := fun hv => h'.externals (h.externals hv)
  cycles := h'.cycles.trans h.cycles

theorem lt (hv : v < g.symbols.vars.size) : v < g'.symbols.vars.size := by
  obtain ⟨w, hw⟩ := exists_var? hv
  exact lt_of_var? (h.vars hw)

theorem module?_plain (m : ModuleId) :
    (g'.module? m).map plain = (g.module? m).map plain := by
  cases hm : g.module? m with
  | none =>
    have hsize : g.modules.size ≤ m := by simpa [module?] using hm
    have hnone : g'.module? m = none := by simpa [module?, h.size] using hsize
    rw [hnone]
  | some mod =>
    obtain ⟨mod', hm', he⟩ := h.modules hm
    rw [hm', Option.map_some, Option.map_some, he.plain]

theorem module?_old {mod' : Module} (hmod' : g'.module? m = some mod') :
    ∃ mod, g.module? m = some mod ∧ mod.Extends mod' := by
  cases hmod : g.module? m with
  | none =>
    have hplain := h.module?_plain m
    rw [hmod, hmod'] at hplain
    cases hplain
  | some mod =>
    obtain ⟨mod'', hmod'', he⟩ := h.modules hmod
    rw [hmod'] at hmod''
    cases hmod''
    exact ⟨mod, rfl, he⟩

theorem lookupIn? (s : ScopeId) (name : Bytes) :
    g'.symbols.lookupIn? s name = g.symbols.lookupIn? s name := by
  simp [Symbols.lookupIn?, Symbols.scope?, h.scopes]

end

end Linked

/-! ## Names reached through all exports of other modules -/

namespace Graph

variable {g g' : Graph}

theorem starNamesFrom_congr
    (h : ∀ m, (g'.module? m).map plain = (g.module? m).map plain) :
    ∀ n visited m, g'.starNamesFrom n visited m = g.starNamesFrom n visited m
  | 0, _, _ => rfl
  | n + 1, visited, m => by
    have hm := h m
    cases hmod : g.module? m with
    | none =>
      rw [hmod] at hm
      simp [starNamesFrom, hmod, Option.map_eq_none_iff.mp hm]
    | some mod =>
      rw [hmod] at hm
      obtain ⟨mod', hmod', hplain⟩ := Option.map_eq_some_iff.mp hm
      have hown : ∀ t, ((g'.module? t).map exportNames).getD [] =
          ((g.module? t).map exportNames).getD [] := by
        intro t
        have ht := congrArg (Option.map exportNames) (h t)
        rw [Option.map_map, Option.map_map] at ht
        exact congrArg (Option.getD · []) ht
      simp [starNamesFrom, hmod, hmod', starSources_congr hplain, target?_congr hplain, exportNames_congr hplain, starNamesFrom_congr h n, hown]

theorem starNames_congr {h : Graph} (hsize : h.modules.size = g.modules.size)
    (hplain : ∀ m, (h.module? m).map plain = (g.module? m).map plain)
    (m : ModuleId) : h.starNames m = g.starNames m := by
  simp [starNames, hsize, starNamesFrom_congr hplain]

end Graph

theorem Linked.starNames (h : Linked g g') (m : ModuleId) :
    g'.starNames m = g.starNames m := starNames_congr h.size h.module?_plain m

/-! ## What there is to find -/

namespace Graph

def IsSpace (g : Graph) (v : VarId) : Prop := ∃ w, g.var? v = some w ∧ w.isNamespace = true

/-- A variable at the top of a module: a name of its own scope, its default export or a namespace.
Exports of outside sources count among them. -/
def OnTop (g : Graph) (v : VarId) : Prop :=
  (∃ m mod, g.module? m = some mod ∧
    ((∃ name, g.symbols.lookupIn? mod.program.scope name = some v) ∨ mod.defaultVar = some v)) ∨
  (∃ k, g.externals.lookup k = some v) ∨ g.IsSpace v

def StarEdge (g : Graph) (m t : ModuleId) : Prop :=
  ∃ mod, g.module? m = some mod ∧ ∃ source ∈ mod.starSources, mod.target? source = some t

/-- A module exports a name by itself, or everything of modules one of which does. A default export
is not passed on. -/
def Offers (g : Graph) (m : ModuleId) (name : Bytes) : Prop :=
  ∃ t mod, ReflTransGen g.StarEdge m t ∧ g.module? t = some mod ∧ name ∈ mod.exportNames ∧
    (name = utf8 "default" → t = m)

variable {g g' : Graph}

theorem OnTop.mono (h : g.OnTop v)
    (hplain : ∀ m, (g'.module? m).map plain = (g.module? m).map plain)
    (hnames : ∀ {s name u}, g.symbols.lookupIn? s name = some u →
      g'.symbols.lookupIn? s name = some u)
    (hexternals : ∀ {k u}, g.externals.lookup k = some u → g'.externals.lookup k = some u)
    (hspaces : ∀ {u}, g.IsSpace u → g'.IsSpace u) : g'.OnTop v := by
  rcases h with ⟨m, mod, hmod, h⟩ | ⟨k, hk⟩ | hspace
  · obtain ⟨mod', hmod', hsame⟩ := Option.map_eq_some_iff.mp ((hplain m).trans (by rw [hmod]; rfl))
    have hscope : mod'.program.scope = mod.program.scope :=
      congrArg (fun mod => mod.program.scope) hsame
    rcases h with ⟨name, hname⟩ | hdefault
    · exact .inl ⟨m, mod', hmod', .inl ⟨name, by rw [hscope]; exact hnames hname⟩⟩
    · exact .inl ⟨m, mod', hmod', .inr ((congrArg defaultVar hsame).trans hdefault)⟩
  · exact .inr (.inl ⟨k, hexternals hk⟩)
  · exact .inr (.inr (hspaces hspace))

theorem Offers.congr (h : g.Offers m name)
    (hplain : ∀ m, (g'.module? m).map plain = (g.module? m).map plain) :
    g'.Offers m name := by
  have hmodule : ∀ {k mod}, g.module? k = some mod →
      ∃ mod', g'.module? k = some mod' ∧ mod'.plain = mod.plain :=
    fun {k _} hk => Option.map_eq_some_iff.mp ((hplain k).trans (by rw [hk]; rfl))
  obtain ⟨t, mod, hreach, hmod, hname, hdefault⟩ := h
  obtain ⟨mod', hmod', hsame⟩ := hmodule hmod
  refine ⟨t, mod', hreach.lift id fun a b hab => ?_, hmod', ?_, hdefault⟩
  · obtain ⟨moda, ha, source, hsource, htarget⟩ := hab
    obtain ⟨moda', ha', hsame⟩ := hmodule ha
    refine ⟨moda', ha', source, ?_, ?_⟩
    · rwa [starSources_congr hsame]
    · rwa [target?_congr hsame]
  · rwa [exportNames_congr hsame]

theorem Offers.own (hmod : g.module? m = some mod) (hname : name ∈ mod.exportNames) :
    g.Offers m name :=
  ⟨m, mod, .refl, hmod, hname, fun _ => rfl⟩

theorem Offers.star {t : ModuleId} (hedge : g.StarEdge m t) (hname : name ≠ utf8 "default")
    (h : g.Offers t name) : g.Offers m name := by
  obtain ⟨s, mod, hreach, hmod, hmem, -⟩ := h
  exact ⟨s, mod, .head hedge hreach, hmod, hmem, fun h => absurd h hname⟩

def Findable (g : Graph) (m : ModuleId) (name : Bytes) (v : VarId) : Prop :=
  g.OnTop v ∧ (name = utf8 "*" ∨ g.Offers m name)

theorem plain_modifyModule (hf : ∀ mod, (f mod).plain = mod.plain) (k : ModuleId) :
    ((g.modifyModule m f).module? k).map plain = (g.module? k).map plain := by
  rw [module?_modifyModule]
  split
  · rw [Option.map_map]
    cases g.module? k with
    | none => rfl
    | some mod => exact congrArg some (hf mod)
  · rfl

theorem OnTop.modifyModule (h : g.OnTop v) (hf : ∀ mod, (f mod).plain = mod.plain) :
    (g.modifyModule m f).OnTop v :=
  h.mono (plain_modifyModule hf) id id id

theorem Findable.modifyModule {k : ModuleId} (h : g.Findable k name v)
    (hf : ∀ mod, (f mod).plain = mod.plain) : (g.modifyModule m f).Findable k name v :=
  ⟨h.1.modifyModule hf, h.2.imp_right fun h => h.congr (plain_modifyModule hf)⟩

end Graph

section

variable (h : Linked g g')

include h

theorem Linked.isSpace (hv : g.IsSpace v) : g'.IsSpace v := by
  obtain ⟨w, hw, hspace⟩ := hv
  exact ⟨w, h.vars hw, hspace⟩

theorem Linked.onTop (hv : g.OnTop v) : g'.OnTop v :=
  hv.mono h.module?_plain (fun hname => by rwa [h.lookupIn?]) h.externals h.isSpace

theorem Linked.offers (hm : g.Offers m name) :
    g'.Offers m name := hm.congr h.module?_plain

theorem Linked.findable (hv : g.Findable m name v) :
    g'.Findable m name v := ⟨h.onTop hv.1, hv.2.imp_right h.offers⟩

theorem Linked.offers_iff : g'.Offers m name ↔ g.Offers m name :=
  ⟨fun hm => hm.congr fun k => (h.module?_plain k).symm, h.offers⟩

end

/-! ## Linkable graphs -/

/-- The variables of a graph stand in their places, and what is written down about exports and
imports was there to find. The namespaces merged into that of a module are those of the
outside sources it exports everything of. -/
structure Linkable (g : Graph) : Prop where
  arranged : g.Arranged
  namespaceVar : ∀ {m mod v}, g.module? m = some mod → mod.namespaceVar = some v → g.IsSpace v
  tracedExports : ∀ {m mod name v}, g.module? m = some mod →
    mod.tracedExports.lookup name = some (some v) → g.Findable m name v
  tracedImports : ∀ {m mod x v}, g.module? m = some mod →
    mod.tracedImports.lookup x = some (some v) → g.OnTop v
  namespaces : ∀ {v w merged}, g.var? v = some w → w.form = .moduleNamespace merged →
    ∃ m, w.module = some m ∧ ∀ u ∈ merged, ∃ source,
      starName source ∈ g.starNames m ∧ g.externals.lookup (source, utf8 "*") = some u

/-- Linking steps: the graph stays linkable, and is linked further. -/
def linking : Conduct where
  holds := Linkable
  allows := Linked
  refl := Linked.refl
  trans := Linked.trans

/-- Linking steps from one graph, which answer as asked. -/
abbrev LinksFrom {α : Type} (g : Graph) (m : StateM Graph α) (post : α → Graph → Prop) : Prop :=
  linking.Steps g m post

abbrev Links {α : Type} (m : StateM Graph α) (post : α → Graph → Prop) : Prop :=
  ∀ g, LinksFrom g m post

def Known (found : Option VarId) (g : Graph) : Prop :=
  ∀ v, found = some v → v < g.symbols.vars.size

theorem Known.none (g : Graph) : Known none g := nofun

theorem Known.some (h : v < g.symbols.vars.size) : Known (some v) g :=
  fun _ hv => Option.some.inj hv ▸ h

theorem Known.linked {found : Option VarId} (h : Known found g) (hl : Linked g g') :
    Known found g' := fun v hv => hl.lt (h v hv)

/-- A variable that was found stands at the top of a module. -/
def Standing (found : Option VarId) (g : Graph) : Prop := ∀ v, found = some v → g.OnTop v

theorem Standing.none (g : Graph) : Standing none g := nofun

theorem Standing.some (h : g.OnTop v) : Standing (some v) g :=
  fun _ hv => Option.some.inj hv ▸ h

theorem Linkable.lt_of_onTop (hg : Linkable g) (h : g.OnTop v) : v < g.symbols.vars.size := by
  rcases h with ⟨m, mod, hmod, ⟨name, hname⟩ | hdefault⟩ | ⟨k, hk⟩ | ⟨w, hw, -⟩
  · exact hg.arranged.symbols.valid.lookupIn?_lt hname
  · exact (hg.arranged.defaultVar hmod hdefault).1
  · exact hg.arranged.external_lt hk
  · exact lt_of_var? hw

/-- What a search for an export of a module found was there to find. -/
def Found (m : ModuleId) (name : Bytes) (found : Option VarId) (g : Graph) : Prop :=
  ∀ v, found = some v → g.Findable m name v

theorem Found.none (m : ModuleId) (name : Bytes) (g : Graph) : Found m name none g := nofun

theorem Found.linked {found : Option VarId} (h : Found m name found g) (hl : Linked g g') :
    Found m name found g' :=
  fun v hv => hl.findable (h v hv)

theorem Found.standing {found : Option VarId} (h : Found m name found g) :
    Standing found g := fun v hv => (h v hv).1

theorem Standing.found {found : Option VarId} (h : Standing found g)
    (hname : name = utf8 "*" ∨ g.Offers m name) : Found m name found g :=
  fun v hv => ⟨h v hv, hname⟩

theorem Standing.known {found : Option VarId} (h : Standing found g) (hg : Linkable g) :
    Known found g := fun v hv => hg.lt_of_onTop (h v hv)

/-! ## Single steps -/

section

variable {g g₀ : Graph}

theorem Linked.of_same (hrest : g' = { g with
      externalSources := g'.externalSources, diagnostics := g'.diagnostics })
    (hcycles : g'.diagnostics.cycles = g.diagnostics.cycles) : Linked g g' := by
  rw [hrest] at hcycles ⊢
  exact ⟨rfl, rfl, id, fun h hnone => absurd (h.symm.trans hnone) nofun, rfl,
    fun h => ⟨_, h, .refl _⟩, id, hcycles⟩

theorem Linked.warn (g : Graph) (m : ModuleId) {code : Code}
    (h : code.text ≠ Code.circularDependency.text) (message : Bytes) (position : Nat) :
    Linked g (g.warn m code message position) :=
  .of_same rfl (Diagnostics.cycles_report _ _ _ _ _ h)

theorem Linkable.namespaces_linked (hg : Linkable g) (hl : Linked g g') {merged : List VarId}
    (hv : g.var? v = some w) (hform : w.form = .moduleNamespace merged) :
    ∃ m, w.module = some m ∧ ∀ u ∈ merged, ∃ source,
      starName source ∈ g'.starNames m ∧ g'.externals.lookup (source, utf8 "*") = some u := by
  obtain ⟨m, hm, hmerged⟩ := hg.namespaces hv hform
  refine ⟨m, hm, fun u hu => ?_⟩
  obtain ⟨source, hstar, hlookup⟩ := hmerged u hu
  exact ⟨source, by rw [hl.starNames]; exact hstar, hl.externals hlookup⟩

theorem Linkable.grow (hg : Linkable g) (hsymbols : g'.symbols = g.symbols)
    (hmodules : g'.modules = g.modules) (hexternals : g'.externals = g.externals)
    (hsources : g.externalSources ⊆ g'.externalSources) : Linkable g' := by
  have hmodule : ∀ m, g'.module? m = g.module? m := fun m => by simp [module?, hmodules]
  have hvar : ∀ v, g'.var? v = g.var? v := fun v => by simp [var?, hsymbols]
  have hstar : ∀ m, g'.starNames m = g.starNames m :=
    starNames_congr (by rw [hmodules]) fun m => by rw [hmodule]
  have hspace : ∀ {v}, g.IsSpace v → g'.IsSpace v := by
    rintro v ⟨w, hw, hspace⟩
    exact ⟨w, (hvar v).trans hw, hspace⟩
  have htop : ∀ {v}, g.OnTop v → g'.OnTop v := fun hv =>
    hv.mono (fun m => by rw [hmodule]) (fun h => by rwa [hsymbols]) (fun h => by rwa [hexternals])
      hspace
  refine ⟨?_, ?_, ?_, ?_, ?_⟩
  · refine hg.arranged.mono (by rw [hsymbols]) (fun hw => ⟨_, (hvar _).trans hw, .refl _⟩)
      (fun hw hnone => ?_) (fun hm => ⟨_, (hmodule _).symm.trans hm, rfl, rfl⟩) hexternals hsources
    rw [hvar, hnone] at hw
    cases hw
  · intro m mod v hm hv
    rw [hmodule] at hm
    exact hspace (hg.namespaceVar hm hv)
  · intro m mod name v hm hv
    rw [hmodule] at hm
    obtain ⟨hv, hname⟩ := hg.tracedExports hm hv
    exact ⟨htop hv, hname.imp_right fun h => h.congr fun m => by rw [hmodule]⟩
  · intro m mod name v hm hv
    rw [hmodule] at hm
    exact htop (hg.tracedImports hm hv)
  · intro v w merged hw hform
    rw [hvar] at hw
    obtain ⟨m, hm, hmerged⟩ := hg.namespaces hw hform
    refine ⟨m, hm, fun u hu => ?_⟩
    rw [hstar, hexternals]
    exact hmerged u hu

theorem Linkable.congr (hg : Linkable g) (hsymbols : g'.symbols = g.symbols)
    (hmodules : g'.modules = g.modules) (hexternals : g'.externals = g.externals)
    (hsources : g'.externalSources = g.externalSources) : Linkable g' :=
  hg.grow hsymbols hmodules hexternals fun _ h => hsources ▸ h

theorem Linkable.of_same (hg : Linkable g) (hrest : g' = { g with
      externalSources := g'.externalSources, diagnostics := g'.diagnostics })
    (hsources : g.externalSources ⊆ g'.externalSources) : Linkable g' :=
  hg.grow (by rw [hrest]) (by rw [hrest]) (by rw [hrest]) hsources

theorem LinksFrom.report {f : Graph → Graph} {post : PUnit → Graph → Prop}
    (hf : ∀ g, f g = { g with
      externalSources := (f g).externalSources, diagnostics := (f g).diagnostics })
    (hsources : ∀ g, g.externalSources ⊆ (f g).externalSources)
    (hcycles : ∀ g, (f g).diagnostics.cycles = g.diagnostics.cycles)
    (hpost : post ⟨⟩ (f g)) : LinksFrom g (modify f) post :=
  fun hg => ⟨.of_same (hf g) (hcycles g), hg.of_same (hf g) (hsources g), hpost⟩

/-- Something more is written down about a module, as far as the graph at the start of a search can
tell. -/
theorem Linked.modifyModule (h : Linked g₀ g)
    (hf : ∀ mod0 mod, g₀.module? m = some mod0 → mod0.Extends mod → mod0.Extends (f mod)) :
    Linked g₀ (g.modifyModule m f) where
  rest := by
    rw [h.rest]
    rfl
  scopes := h.scopes
  vars := h.vars
  new := h.new
  size := by simpa [Graph.modifyModule] using h.size
  modules := fun {k mod0} hk => by
    obtain ⟨mod, hmod, he⟩ := h.modules hk
    rw [module?_modifyModule]
    split
    · rename_i heq
      subst heq
      exact ⟨f mod, by rw [hmod]; rfl, hf mod0 mod hk he⟩
    · exact ⟨mod, hmod, he⟩
  externals := h.externals
  cycles := h.cycles

theorem Linkable.modifyModule (hg : Linkable g) (hplain : ∀ mod, (f mod).plain = mod.plain)
    (hf : ∀ mod, g.module? m = some mod →
      (∀ v, (f mod).namespaceVar = some v → g.IsSpace v) ∧
      (∀ name v, (f mod).tracedExports.lookup name = some (some v) → g.Findable m name v) ∧
      ∀ name v, (f mod).tracedImports.lookup name = some (some v) → g.OnTop v) :
    Linkable (g.modifyModule m f) := by
  have hmodule : ∀ {k mod}, (g.modifyModule m f).module? k = some mod →
      g.module? k = some mod ∨ ∃ mod', m = k ∧ g.module? k = some mod' ∧ mod = f mod' := by
    intro k mod hk
    rw [module?_modifyModule] at hk
    split at hk
    · obtain ⟨mod', hmod', rfl⟩ := Option.map_eq_some_iff.mp hk
      exact .inr ⟨mod', ‹_›, hmod', rfl⟩
    · exact .inl hk
  have hstar : ∀ k, (g.modifyModule m f).starNames k = g.starNames k :=
    starNames_congr (by simp [Graph.modifyModule]) (plain_modifyModule hplain)
  refine ⟨?_, ?_, ?_, ?_, ?_⟩
  · refine hg.arranged.mono rfl (fun hw => ⟨_, hw, .refl _⟩)
      (fun hw hnone => absurd (hw.symm.trans hnone) nofun) (fun hk => ?_) rfl (List.Subset.refl _)
    rcases hmodule hk with h | ⟨mod', -, h, rfl⟩
    · exact ⟨_, h, rfl, rfl⟩
    · refine ⟨mod', h, congrArg (fun mod => mod.program.scope) (hplain mod'), ?_⟩
      show (f mod').plain.defaultVar = mod'.plain.defaultVar
      rw [hplain]
  · intro k mod v hk hv
    rcases hmodule hk with h | ⟨mod', rfl, h, rfl⟩
    · exact hg.namespaceVar h hv
    · exact (hf mod' h).1 v hv
  · intro k mod name v hk hv
    rcases hmodule hk with h | ⟨mod', rfl, h, rfl⟩
    · exact (hg.tracedExports h hv).modifyModule hplain
    · exact ((hf mod' h).2.1 name v hv).modifyModule hplain
  · intro k mod name v hk hv
    rcases hmodule hk with h | ⟨mod', rfl, h, rfl⟩
    · exact (hg.tracedImports h hv).modifyModule hplain
    · exact ((hf mod' h).2.2 name v hv).modifyModule hplain
  · intro v w merged hv hform
    obtain ⟨k, hk, hmerged⟩ := hg.namespaces hv hform
    refine ⟨k, hk, fun u hu => ?_⟩
    rw [hstar]
    exact hmerged u hu

theorem Linked.addVariable (hw : w.Linked) : Linked g (g.addVariable w).2 where
  rest := rfl
  scopes := rfl
  vars := fun {v u} hv => by
    rw [var?_addVariable, if_neg (Nat.ne_of_lt (lt_of_var? hv)), hv]
  new := fun {v u} hu hnone => by
    rw [var?_addVariable] at hu
    split at hu
    · cases hu; exact hw
    · rw [hu] at hnone; cases hnone
  size := rfl
  modules := fun h => ⟨_, h, .refl _⟩
  externals := id
  cycles := rfl

theorem Linkable.addVariable (hg : Linkable g) (houtput : w.outputName = none)
    (hform : w.form = .moduleNamespace []) (hmodule : w.module.isSome = true) :
    Linkable (g.addVariable w).2 := by
  have hold : ∀ {v u}, g.var? v = some u → (g.addVariable w).2.var? v = some u := by
    intro v u hu
    rw [var?_addVariable, if_neg (Nat.ne_of_lt (lt_of_var? hu)), hu]
  have hspace : ∀ {v}, g.IsSpace v → (g.addVariable w).2.IsSpace v := by
    rintro v ⟨u, hu, hspace⟩
    exact ⟨u, hold hu, hspace⟩
  have htop : ∀ {v}, g.OnTop v → (g.addVariable w).2.OnTop v :=
    fun hv => hv.mono (fun _ => rfl) id id hspace
  refine ⟨?_, fun h hv => hspace (hg.namespaceVar h hv),
    fun h hv => ⟨htop (hg.tracedExports h hv).1, (hg.tracedExports h hv).2⟩,
    fun h hv => htop (hg.tracedImports h hv), ?_⟩
  · refine hg.arranged.mono rfl (fun hu => ⟨_, hold hu, .refl _⟩) (fun {v u} hu hnone => ?_)
      (fun h => ⟨_, h, rfl, rfl⟩) rfl (List.Subset.refl _)
    rw [var?_addVariable, hnone] at hu
    split at hu
    · cases hu
      exact ⟨houtput, Variable.isNamespace_iff.mpr ⟨[], hform⟩⟩
    · cases hu
  · intro v u merged hv hmerged
    rw [var?_addVariable] at hv
    split at hv
    · cases hv
      rw [hform] at hmerged
      cases hmerged
      obtain ⟨m, hm⟩ := Option.isSome_iff_exists.mp hmodule
      exact ⟨m, hm, by simp⟩
    · obtain ⟨m, hm, hmerged⟩ := hg.namespaces hv hmerged
      refine ⟨m, hm, fun x hx => ?_⟩
      rw [starNames_congr (g := g) (h := (g.addVariable w).2) rfl fun _ => rfl]
      exact hmerged x hx

end

/-! ## Outside sources and namespaces -/

theorem mem_addExternalSource (g : Graph) (source : Bytes) :
    source ∈ (g.addExternalSource source).externalSources := by
  unfold addExternalSource
  split
  · rename_i h
    exact contains_iff_mem.mp h
  · exact mem_append.mpr (.inr (mem_singleton.mpr rfl))

theorem externalVariable_links (source imported : Bytes) :
    Links (externalVariable source imported) fun v g =>
      g.externals.lookup (source, imported) = some v := by
  intro g
  refine .bind' (P := fun _ g => source ∈ g.externalSources)
    (LinksFrom.report (fun g => ?_) (fun g => ?_) (fun g => ?_) (mem_addExternalSource g source))
    fun _ g _ hsource => ?_
  · unfold addExternalSource
    split <;> rfl
  · unfold addExternalSource
    split
    · exact List.Subset.refl _
    · exact subset_append_left _ _
  · unfold addExternalSource
    split <;> rfl
  refine .get_bind fun hg => ?_
  cases hlookup : g.externals.lookup (source, imported) with
  | some v => exact .pure' fun _ => hlookup
  | none =>
    intro _
    have hw : (newExternal source imported).Linked := ⟨rfl, .inl ⟨source, imported, rfl⟩⟩
    have hold : Linked g { (g.addVariable (newExternal source imported)).2 with
        externals := g.externals ++ [((source, imported), g.symbols.vars.size)] } :=
      { Linked.addVariable hw with
        rest := rfl
        externals := fun hk => by rw [lookup_append, hk]; rfl }
    refine ⟨hold, ⟨hg.arranged.addExternal hsource imported, ?_, ?_, ?_, ?_⟩, ?_⟩
    · exact fun hm hv => hold.isSpace (hg.namespaceVar hm hv)
    · exact fun hm hv => hold.findable (hg.tracedExports hm hv)
    · exact fun hm hv => hold.onTop (hg.tracedImports hm hv)
    · intro v w merged hv hform
      change (g.addVariable (newExternal source imported)).2.var? v = some w at hv
      rw [var?_addVariable] at hv
      split at hv
      · cases hv; cases hform
      · exact hg.namespaces_linked hold hv hform
    · show (g.externals ++ [((source, imported), g.symbols.vars.size)]).lookup
        (source, imported) = some g.symbols.vars.size
      rw [lookup_append, hlookup, lookup_cons, beq_self_eq_true]
      rfl

theorem Linked.modifyVar {g₀ : Graph} (h : Linked g₀ g) {f : Variable → Variable}
    (hv : g₀.var? v = none) (hf : ∀ w, w.Linked → (f w).Linked) :
    Linked g₀ (g.modifyVar v f) where
  rest := by
    rw [h.rest]
    rfl
  scopes := h.scopes
  vars := fun {u w} hu => by
    rw [var?_modifyVar, if_neg, h.vars hu]
    rintro rfl
    rw [hv] at hu
    cases hu
  new := fun {u w} hu hnone => by
    rw [var?_modifyVar] at hu
    split at hu
    · obtain ⟨w', hw', rfl⟩ := Option.map_eq_some_iff.mp hu
      exact hf w' (h.new hw' hnone)
    · exact h.new hu hnone
  size := h.size
  modules := h.modules
  externals := h.externals
  cycles := h.cycles

theorem Linkable.modifyVar (hg : Linkable g) {f : Variable → Variable}
    (hsame : ∀ w, g.var? v = some w → w.Resembles (f w))
    (hf : ∀ w merged, g.var? v = some w → (f w).form = .moduleNamespace merged →
      ∃ m, (f w).module = some m ∧ ∀ u ∈ merged, ∃ source,
        starName source ∈ g.starNames m ∧ g.externals.lookup (source, utf8 "*") = some u) :
    Linkable (g.modifyVar v f) := by
  have hstar : ∀ m, (g.modifyVar v f).starNames m = g.starNames m :=
    starNames_congr rfl fun _ => rfl
  have hvars : ∀ {u w}, g.var? u = some w →
      ∃ w', (g.modifyVar v f).var? u = some w' ∧ w.Resembles w' := by
    intro u w hw
    rw [var?_modifyVar, hw]
    split
    · rename_i heq
      subst heq
      exact ⟨f w, rfl, hsame w hw⟩
    · exact ⟨w, rfl, .refl w⟩
  have hspaces : ∀ {u}, g.IsSpace u → (g.modifyVar v f).IsSpace u := by
    rintro u ⟨w, hw, hspace⟩
    obtain ⟨w', hw', hr⟩ := hvars hw
    exact ⟨w', hw', hr.isNamespace hspace⟩
  have htop : ∀ {u}, g.OnTop u → (g.modifyVar v f).OnTop u :=
    fun hu => hu.mono (fun _ => rfl) id id hspaces
  refine ⟨?_, ?_, ?_, ?_, ?_⟩
  · refine hg.arranged.mono rfl hvars (fun hw hnone => ?_) (fun h => ⟨_, h, rfl, rfl⟩) rfl
      (List.Subset.refl _)
    rw [var?_modifyVar, hnone] at hw
    split at hw <;> cases hw
  · exact fun h hu => hspaces (hg.namespaceVar h hu)
  · exact fun h hu => ⟨htop (hg.tracedExports h hu).1, (hg.tracedExports h hu).2⟩
  · exact fun h hu => htop (hg.tracedImports h hu)
  · intro u w merged hu hform
    rw [var?_modifyVar] at hu
    split at hu
    · rename_i heq
      subst heq
      obtain ⟨w', hw', rfl⟩ := Option.map_eq_some_iff.mp hu
      obtain ⟨m, hm, hmerged⟩ := hf w' merged hw' hform
      exact ⟨m, hm, fun u hu => by rw [hstar]; exact hmerged u hu⟩
    · obtain ⟨m, hm, hmerged⟩ := hg.namespaces hu hform
      exact ⟨m, hm, fun u hu => by rw [hstar]; exact hmerged u hu⟩

theorem starName_of_starSource? {source : Bytes} (h : starSource? name = some source) :
    name = starName source := by
  unfold starSource? at h
  split at h
  · cases h; rfl
  · cases h

/-- The namespaces of the outside sources among names reached through `export *`. -/
def mergedNamespaces (names : List Bytes) : StateM Graph (List VarId) :=
  names.filterMapM fun name =>
    match starSource? name with
    | some source => some <$> externalVariable source (utf8 "*")
    | none => pure none

theorem mergedNamespaces_links (names : List Bytes) (g : Graph) :
    LinksFrom g (mergedNamespaces names) fun merged g' => ∀ u ∈ merged, ∃ source,
      starName source ∈ names ∧ g'.externals.lookup (source, utf8 "*") = some u := by
  refine (Steps.filterMapM' (R := fun name found g' => ∀ u, found = some u → ∃ source,
    name = starName source ∧ g'.externals.lookup (source, utf8 "*") = some u) ?_ ?_ names g).imp ?_
  · intro name found g g' h hl u hu
    obtain ⟨source, hname, hlookup⟩ := h u hu
    exact ⟨source, hname, hl.externals hlookup⟩
  · intro g name
    cases hname : starSource? name with
    | none => exact .pure' fun _ => nofun
    | some source =>
      refine .map' ((externalVariable_links source _ g).imp fun v g' _ hv u hu => ?_)
      cases hu
      exact ⟨source, starName_of_starSource? hname, hv⟩
  · rintro merged g' - ⟨found, rfl, hfound, rfl⟩ u hu
    obtain ⟨p, hp, hu⟩ := mem_filterMap.mp hu
    obtain ⟨source, hname, hlookup⟩ := hfound p hp u hu
    exact ⟨source, hname ▸ mem_map_of_mem hp, hlookup⟩

theorem namespaceVariable_links (m : ModuleId) :
    Links (namespaceVariable m) fun v g => g.IsSpace v ∧
      ∀ mod, g.module? m = some mod → mod.namespaceVar = some v := by
  intro g
  refine .get_bind fun hg => ?_
  cases hfound : (g.module? m).bind namespaceVar with
  | some v =>
    obtain ⟨mod, hmod, hv⟩ := Option.bind_eq_some_iff.mp hfound
    refine .pure' fun _ => ⟨hg.namespaceVar hmod hv, fun mod' hmod' => ?_⟩
    cases hmod.symm.trans hmod'
    exact hv
  | none =>
    intro _
    let w : Variable :=
      { name := defaultName (g.pathOf m), form := .moduleNamespace [], module := some m }
    let write (mod : Module) : Module := { mod with namespaceVar := some g.symbols.vars.size }
    have hw : w.Linked := ⟨rfl, .inr rfl⟩
    have h1 : Linked g ((g.addVariable w).2.modifyModule m write) := by
      refine (Linked.addVariable hw).modifyModule fun mod0 mod hmod0 he => ?_
      refine ⟨he.plain, he.allExportsIncluded, fun hv => ?_, he.tracedExports, he.tracedImports⟩
      rw [hmod0, Option.bind_some, hv] at hfound
      cases hfound
    have hg1 : Linkable ((g.addVariable w).2.modifyModule m write) := by
      have hadd := hg.addVariable (w := w) rfl rfl rfl
      refine hadd.modifyModule (fun _ => rfl) fun mod hmod => ⟨?_, ?_, ?_⟩
      · rintro v hv
        cases hv
        exact ⟨w, by simp, rfl⟩
      · exact fun _ _ hv => hadd.tracedExports hmod hv
      · exact fun _ _ hv => hadd.tracedImports hmod hv
    let g₁ := (g.addVariable w).2.modifyModule m write
    let r := (mergedNamespaces (g₁.starNames m)).run g₁
    let merge (w : Variable) : Variable := { w with form := .moduleNamespace r.1 }
    obtain ⟨h2, hg2, hmerged⟩ := mergedNamespaces_links (g₁.starNames m) g₁ hg1
    have hw' : g₁.var? g.symbols.vars.size = some w := by simp [g₁]
    have h3 : Linked g (r.2.modifyVar g.symbols.vars.size merge) :=
      (h1.trans h2).modifyVar (var?_size g) fun w hw => ⟨by rw [hw.rest], .inr rfl⟩
    have hg3 : Linkable (r.2.modifyVar g.symbols.vars.size merge) := by
      refine hg2.modifyVar (fun u hu => ?_) fun u merged hu hform => ?_
      · rw [h2.vars hw'] at hu
        cases hu
        exact ⟨rfl, .inl rfl, .inr (.inr ⟨rfl, rfl⟩)⟩
      cases hform
      rw [h2.vars hw'] at hu
      cases hu
      refine ⟨m, rfl, fun u hu => ?_⟩
      rw [h2.starNames]
      exact hmerged u hu
    have hspace : (r.2.modifyVar g.symbols.vars.size merge).IsSpace g.symbols.vars.size :=
      ⟨merge w, by rw [var?_modifyVar, if_pos rfl, h2.vars hw']; rfl, rfl⟩
    refine ⟨h3, hg3, hspace, fun mod' hmod' => ?_⟩
    cases hmod : g.module? m with
    | none =>
      have hplain := (h3.module?_plain m).symm
      rw [hmod, show (r.2.modifyVar g.symbols.vars.size merge).module? m = some mod' from hmod']
        at hplain
      cases hplain
    | some mod =>
      have hwritten : g₁.module? m = some (write mod) := by
        rw [module?_modifyModule, if_pos rfl]
        show (g.module? m).map write = _
        rw [hmod]
        rfl
      obtain ⟨mod2, hmod2, he⟩ := h2.modules hwritten
      cases hmod2.symm.trans hmod'
      exact he.namespaceVar rfl

theorem Module.mem_exportNames_of_localExport? {e : LocalExport}
    (h : mod.localExport? name = some e) : name ∈ mod.exportNames := by
  have hname : e.exported = name := by simpa using find?_some h
  refine mem_append_left _ (mem_map.mpr ⟨e, mem_of_find?_eq_some h, hname⟩)

theorem Module.mem_exportNames_of_reexport? {e : Reexport} (h : mod.reexport? name = some e) :
    name ∈ mod.exportNames := by
  have hname : e.exported = name := by simpa using find?_some h
  refine mem_append_right _ (mem_map.mpr ⟨e, mem_of_find?_eq_some h, hname⟩)

theorem reportConflict_links (m : ModuleId) (name first second : Bytes) :
    Links (reportConflict m name first second) fun _ _ => True := by
  intro g
  refine .modify' fun hg => ?_
  split
  · exact ⟨.refl g, hg, trivial⟩
  · have h : Linked g (g.modifyModule m fun mod => { mod with conflicts := name :: mod.conflicts }) :=
      (Linked.refl g).modifyModule fun mod0 mod _ he =>
        ⟨he.plain, he.allExportsIncluded, he.namespaceVar, he.tracedExports, he.tracedImports⟩
    have hg' := hg.modifyModule (m := m)
      (f := fun mod => { mod with conflicts := name :: mod.conflicts }) (fun _ => rfl)
      fun mod hmod => ⟨fun _ hv => hg.namespaceVar hmod hv, fun _ _ hv => hg.tracedExports hmod hv,
        fun _ _ hv => hg.tracedImports hmod hv⟩
    exact ⟨h.trans (.warn _ m (by decide) _ 0), hg'.of_same rfl (List.Subset.refl _), trivial⟩

/-! ## Writing down what was found -/

/-- What was written down before is found before what is written down now, unless there was
nothing. -/
theorem lookup_write {l0 : List (Bytes × Option VarId)} {key : Bytes} {found old : Option VarId}
    (hnew : l0.lookup name = none) (hl : ∀ {k f}, l0.lookup k = some f → l.lookup k = some f)
    (h : l0.lookup key = some old) : ((name, found) :: l).lookup key = some old := by
  have hne : (key == name) = false := by
    refine beq_false_of_ne ?_
    rintro rfl
    rw [hnew] at h
    cases h
  rw [lookup_cons, hne]
  exact hl h

theorem lookup_written {P : Bytes → VarId → Prop} {key : Bytes} {found : Option VarId}
    (hfound : ∀ v, found = some v → P name v) (hl : ∀ {k u}, l.lookup k = some (some u) → P k u)
    (h : ((name, found) :: l).lookup key = some (some v)) : P key v := by
  rw [lookup_cons] at h
  split at h
  · rename_i heq
    cases h
    rw [eq_of_beq heq]
    exact hfound v rfl
  · exact hl h

namespace Graph

def traced? (g : Graph) (m : ModuleId) (name : Bytes) : Option (Option VarId) :=
  (g.module? m).bind fun mod => mod.tracedExports.lookup name

def writeExport (g : Graph) (m : ModuleId) (name : Bytes) (found : Option VarId) : Graph :=
  g.modifyModule m fun mod => { mod with tracedExports := (name, found) :: mod.tracedExports }

def writeImport (g : Graph) (m : ModuleId) (name : Bytes) (found : Option VarId) : Graph :=
  g.modifyModule m fun mod => { mod with tracedImports := (name, found) :: mod.tracedImports }

end Graph

section

variable {g g₁ : Graph} {m : ModuleId} {name : Bytes} {found : Option VarId}

theorem Linked.writeExport (h : Linked g g₁) (hnone : g.traced? m name = none) :
    Linked g (g₁.writeExport m name found) := by
  refine h.modifyModule fun mod0 mod hmod0 he => ⟨he.plain, he.allExportsIncluded,
    he.namespaceVar, lookup_write ?_ he.tracedExports, he.tracedImports⟩
  simpa only [Graph.traced?, hmod0, Option.bind_some] using hnone

theorem Linkable.writeExport (hg : Linkable g) (hfound : Found m name found g) :
    Linkable (g.writeExport m name found) :=
  hg.modifyModule (fun _ => rfl) fun _ hmod => ⟨fun _ hv => hg.namespaceVar hmod hv,
    fun _ _ hv => lookup_written hfound (hg.tracedExports hmod) hv,
    fun _ _ hv => hg.tracedImports hmod hv⟩

theorem Linked.writeImport (h : Linked g g₁)
    (hnone : ∀ mod, g.module? m = some mod → mod.tracedImports.lookup name = none) :
    Linked g (g₁.writeImport m name found) :=
  h.modifyModule fun mod0 _ hmod0 he => ⟨he.plain, he.allExportsIncluded, he.namespaceVar,
    he.tracedExports, lookup_write (hnone mod0 hmod0) he.tracedImports⟩

theorem Linkable.writeImport (hg : Linkable g) (hfound : Standing found g) :
    Linkable (g.writeImport m name found) :=
  hg.modifyModule (fun _ => rfl) fun _ hmod => ⟨fun _ hv => hg.namespaceVar hmod hv,
    fun _ _ hv => hg.tracedExports hmod hv,
    fun _ _ hv => lookup_written (P := fun _ => g.OnTop) hfound (hg.tracedImports hmod) hv⟩

end

end Winnow
