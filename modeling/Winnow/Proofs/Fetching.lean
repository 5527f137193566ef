import Winnow.Proofs.Built

/-!
# What loading brings in

A module is loaded once, when something that is loaded first names it. `Graph.Fetched` is what holds
of the modules at any moment: each is a file, parsed, with the specifiers of its program, and the
modules found so far for them are the right ones. `load_fetches` says what a call of `load` adds:
modules that the one it was called for leads to, with every one of their specifiers looked up.
`Graph.Gathered` is the outcome for all entries.
-/

namespace Winnow

open Relation Winnow.Graph BuildM Specifier

variable {d id m t : ModuleId} {g g' : Graph} {m' mod : Module} {path : Bytes}

/-! ## Specifiers -/

def Stmt.specifier? : Stmt → Option Bytes
  | .importFrom _ source _ => some source
  | .exportAll _ source _ => some source
  | .exportList _ source _ => if source.isEmpty then none else some source
  | _ => none

def Program.specifiers (p : Program) : List Bytes := p.body.filterMap Stmt.specifier?

/-- Whether the module that a specifier means belongs to the bundle. -/
def Specifier.isInside (external : List Bytes) (specifier : Bytes) : Bool :=
  isRelative specifier && !external.contains specifier

/-- A module that names more modules than before, and knows nothing of them. -/
structure Module.Names (specifiers : List Bytes) (m m' : Module) : Prop where
  specifiers : ∀ s, (∃ d ∈ m'.dependencies, d.specifier = s) ↔
    (∃ d ∈ m.dependencies, d.specifier = s) ∨ s ∈ specifiers
  targets : ∀ d ∈ m'.dependencies, d ∈ m.dependencies ∨ d.target = none

namespace Module

theorem Names.of_same {m : Module} (h : m'.dependencies = m.dependencies) : Names [] m m' := by
  constructor <;> simp +contextual [h]

theorem Names.trans {ss ts : List Bytes} {a b c : Module} (h : Names ss a b) (h' : Names ts b c) :
    Names (ss ++ ts) a c where
  specifiers := fun s => by rw [h'.specifiers, h.specifiers, List.mem_append, or_assoc]
  targets := fun d hd => (h'.targets d hd).elim (h.targets d) .inr

theorem Names.addDependency (m : Module) (specifier : Bytes) :
    Names [specifier] m (m.addDependency specifier) := by
  unfold Module.addDependency
  split
  · rename_i hknown
    obtain ⟨d, hd, heq⟩ := List.any_eq_true.mp hknown
    refine ⟨fun s => ⟨.inl, fun h => h.elim id fun hs => ?_⟩, fun d hd => .inl hd⟩
    rw [List.mem_singleton.mp hs]
    exact ⟨d, hd, of_decide_eq_true heq⟩
  · constructor
    · intro s
      simp only [List.mem_append, List.mem_singleton]
      constructor
      · rintro ⟨d, hd | rfl, rfl⟩
        · exact .inl ⟨d, hd, rfl⟩
        · exact .inr rfl
      · rintro (⟨d, hd, rfl⟩ | rfl)
        · exact ⟨d, .inl hd, rfl⟩
        · exact ⟨_, .inr rfl, rfl⟩
    · intro d hd
      rcases List.mem_append.mp hd with hd | hd
      · exact .inl hd
      · exact .inr (List.mem_singleton.mp hd ▸ rfl)

theorem addExport_dependencies {m : Module} {e : LocalExport} (h : m.addExport e = .ok m') :
    m'.dependencies = m.dependencies := by
  unfold addExport checkNew at h
  split at h
  · cases h
  · cases h
    rfl

theorem addReexport_dependencies {m : Module} {e : Reexport} (h : m.addReexport e = .ok m') :
    m'.dependencies = m.dependencies := by
  unfold addReexport checkNew at h
  split at h
  · cases h
  · cases h
    rfl

theorem foldlM_dependencies {α : Type} {f : Module → α → Except DuplicateExport Module}
    (hf : ∀ x m m', f m x = .ok m' → m'.dependencies = m.dependencies) {l : List α} :
    ∀ {m m' : Module}, l.foldlM f m = .ok m' → m'.dependencies = m.dependencies := by
  induction l with
  | nil => intro m m' h; cases h; rfl
  | cons x l ih =>
    intro m m' h
    rw [List.foldlM_cons] at h
    cases hstep : f m x with
    | error e => rw [hstep] at h; cases h
    | ok m1 =>
      rw [hstep] at h
      exact (ih h).trans (hf x m m1 hstep)

theorem declareStatement_names {symbols : Symbols} {s : Stmt} {m : Module}
    (h : m.declareStatement symbols s = .ok m') : Names s.specifier?.toList m m' := by
  cases s with
  | importFrom i source specifiers =>
    cases h
    exact (Names.addDependency m source).trans (.of_same rfl)
  | exportAll i source exported =>
    refine (Names.addDependency m source).trans (.of_same ?_)
    simp only [declareStatement] at h
    split at h
    · cases h
      rfl
    · exact addReexport_dependencies h
  | exportList i source specifiers =>
    simp only [declareStatement] at h
    show Names (if source.isEmpty then none else some source).toList m m'
    split at h
    · rename_i hempty
      rw [if_pos hempty]
      exact .of_same (foldlM_dependencies (fun _ _ _ => addExport_dependencies) h)
    · rename_i hempty
      rw [if_neg hempty]
      exact (Names.addDependency m source).trans
        (.of_same (foldlM_dependencies (fun _ _ _ => addReexport_dependencies) h))
  | exportDeclaration i d =>
    exact .of_same (foldlM_dependencies (fun _ _ _ => addExport_dependencies) h)
  | exportDefault i v e =>
    exact .of_same (addExport_dependencies (m := { m with defaultVar := some v }) h)
  | _ => cases h; exact .of_same rfl

theorem declare_names {symbols : Symbols} {m : Module} (h : m.declare symbols = .ok m') :
    Names m.program.specifiers m m' := by
  have hfold : ∀ (body : List Stmt) {m : Module},
      body.foldlM (declareStatement symbols) m = .ok m' →
      Names (body.filterMap Stmt.specifier?) m m' := by
    intro body
    induction body with
    | nil => intro m h; cases h; exact .of_same rfl
    | cons s body ih =>
      intro m h
      rw [List.foldlM_cons] at h
      cases hstep : m.declareStatement symbols s with
      | error e => rw [hstep] at h; cases h
      | ok m1 =>
        rw [hstep] at h
        have hall := (declareStatement_names hstep).trans (ih h)
        cases hs : s.specifier? with
        | none =>
          rw [hs] at hall
          rwa [List.filterMap_cons_none hs]
        | some specifier =>
          rw [hs] at hall
          rwa [List.filterMap_cons_some hs]
  exact hfold _ h

end Module

/-! ## Modules that are loaded -/

def Graph.path? (g : Graph) (m : ModuleId) : Option Bytes := (g.module? m).map Module.path

/-- One module imports another: a specifier of its program is that of a module of the bundle, and
means the file of the other. -/
def Graph.Imports (files : Files) (external : List Bytes) (g : Graph) (m d : ModuleId) : Prop :=
  ∃ mod s target, g.module? m = some mod ∧ s ∈ mod.program.specifiers ∧
    Specifier.isInside external s = true ∧
    Specifier.resolve? files.isModule mod.path s = some target ∧ g.path? d = some target

/-- What holds of the modules while they are loaded. -/
structure Graph.Fetched (files : Files) (external : List Bytes) (g : Graph) : Prop where
  source : ∀ {m mod}, g.module? m = some mod → files.lookup mod.path = some mod.source
  parsed : ∀ {m mod}, g.module? m = some mod → ∃ symbols first p,
    Program.parse mod.source (some m) (Module.defaultName mod.path) symbols first = .ok p ∧
      p.program = mod.program
  scope : ∀ {m mod}, g.module? m = some mod →
    g.symbols.kind? mod.program.scope = some .module
  once : ∀ {m n path}, g.path? m = some path → g.path? n = some path → m = n
  specifiers : ∀ {m mod}, g.module? m = some mod → ∀ s,
    (∃ d ∈ mod.dependencies, d.specifier = s) ↔ s ∈ mod.program.specifiers
  targets : ∀ {m mod d t}, g.module? m = some mod → d ∈ mod.dependencies → d.target = some t →
    Specifier.isInside external d.specifier = true ∧
      ∃ target, Specifier.resolve? files.isModule mod.path d.specifier = some target ∧
        g.path? t = some target

/-- It is known which module a specifier of a module means, unless it lies outside the bundle. -/
def Graph.LookedUp (external : List Bytes) (m : ModuleId) (s : Bytes) (g : Graph) : Prop :=
  Specifier.isInside external s = true → ∀ mod, g.module? m = some mod →
    ∀ d ∈ mod.dependencies, d.specifier = s → d.target ≠ none

/-- A module of which more dependencies are known. -/
structure Module.Fills (mod mod' : Module) : Prop where
  path : mod'.path = mod.path
  source : mod'.source = mod.source
  program : mod'.program = mod.program
  dependencies : ∀ d' ∈ mod'.dependencies, ∃ d ∈ mod.dependencies, d'.specifier = d.specifier ∧
    (d'.target = none → d.target = none)

structure Graph.Grows (g g' : Graph) : Prop where
  kinds : ∀ {s kind}, g.symbols.kind? s = some kind → g'.symbols.kind? s = some kind
  modules : ∀ {m mod}, g.module? m = some mod → ∃ mod', g'.module? m = some mod' ∧ mod.Fills mod'
  entries : g'.entries = g.entries
  reports : g'.diagnostics.entries = g.diagnostics.entries
  silenced : g'.diagnostics.silenced = g.diagnostics.silenced

/-- What loading reads and finds out of a module. -/
def Module.text (mod : Module) : Bytes × Bytes × Program × List Dependency :=
  (mod.path, mod.source, mod.program, mod.dependencies)

/-- The modules of two graphs are the same as far as loading goes. -/
structure Graph.SameText (g g' : Graph) : Prop where
  modules : ∀ m, (g'.module? m).map Module.text = (g.module? m).map Module.text
  kinds : ∀ s, g'.symbols.kind? s = g.symbols.kind? s

namespace Graph.SameText

variable {g g' : Graph} {files : Files} {external : List Bytes}

section

variable (h : g.SameText g')

include h

theorem symm : g'.SameText g :=
  ⟨fun m => (h.modules m).symm, fun s => (h.kinds s).symm⟩

theorem trans {g'' : Graph} (h' : g'.SameText g'') : g.SameText g'' :=
  ⟨fun m => (h'.modules m).trans (h.modules m), fun s => (h'.kinds s).trans (h.kinds s)⟩

theorem module? (hm : g.module? m = some mod) :
    ∃ mod', g'.module? m = some mod' ∧ mod'.path = mod.path ∧ mod'.source = mod.source ∧
      mod'.program = mod.program ∧ mod'.dependencies = mod.dependencies := by
  have hsame := h.modules m
  rw [hm] at hsame
  obtain ⟨mod', hm', htext⟩ := Option.map_eq_some_iff.mp hsame
  simp only [Module.text, Prod.mk.injEq] at htext
  exact ⟨mod', hm', htext⟩

theorem path? (m : ModuleId) : g'.path? m = g.path? m := by
  have hsame := congrArg (Option.map Prod.fst) (h.modules m)
  rw [Option.map_map, Option.map_map] at hsame
  exact hsame

theorem imports (hm : g.Imports files external m d) : g'.Imports files external m d := by
  obtain ⟨mod, s, target, hmod, hs, hinside, hresolve, hd⟩ := hm
  obtain ⟨mod', hmod', hpath, -, hprogram, -⟩ := h.module? hmod
  exact ⟨mod', s, target, hmod', hprogram ▸ hs, hinside, hpath ▸ hresolve, (h.path? d).trans hd⟩

theorem lookedUp {s : Bytes} (hs : g.LookedUp external m s) : g'.LookedUp external m s := by
  intro hinside mod' hmod' d hd
  obtain ⟨mod, hmod, -, -, -, hdependencies⟩ := h.symm.module? hmod'
  exact hs hinside mod hmod d (hdependencies ▸ hd)

theorem fetched (hg : g.Fetched files external) : g'.Fetched files external := by
  refine ⟨fun hm => ?_, fun hm => ?_, fun hm => ?_, fun hm hn => ?_, fun hm => ?_,
    fun hm hd ht => ?_⟩
  · obtain ⟨mod, hmod, hpath, hsource, -⟩ := h.symm.module? hm
    exact hpath ▸ hsource ▸ hg.source hmod
  · obtain ⟨mod, hmod, hpath, hsource, hprogram, -⟩ := h.symm.module? hm
    exact hpath ▸ hsource ▸ hprogram ▸ hg.parsed hmod
  · obtain ⟨mod, hmod, -, -, hprogram, -⟩ := h.symm.module? hm
    exact (h.kinds _).trans (hprogram ▸ hg.scope hmod)
  · exact hg.once ((h.path? _).symm.trans hm) ((h.path? _).symm.trans hn)
  · obtain ⟨mod, hmod, -, -, hprogram, hdependencies⟩ := h.symm.module? hm
    exact hprogram ▸ hdependencies ▸ hg.specifiers hmod
  · obtain ⟨mod, hmod, hpath, -, -, hdependencies⟩ := h.symm.module? hm
    obtain ⟨hinside, target, hresolve, htarget⟩ := hg.targets hmod (hdependencies ▸ hd) ht
    exact ⟨hinside, target, hpath ▸ hresolve, (h.path? _).trans htarget⟩

end

end Graph.SameText

/-- A module once it is known which module a specifier means. -/
def Module.fill (specifier : Bytes) (t : ModuleId) (mod : Module) : Module :=
  { mod with dependencies := mod.dependencies.map fun e =>
    if e.specifier = specifier then { e with target := some t } else e }

theorem Module.mem_fill {specifier : Bytes} {d' : Dependency} :
    d' ∈ (mod.fill specifier t).dependencies ↔ ∃ d ∈ mod.dependencies,
      d'.specifier = d.specifier ∧
        d'.target = if d.specifier = specifier then some t else d.target := by
  rw [Module.fill, List.mem_map]
  refine exists_congr fun d => and_congr_right fun _ => ?_
  obtain ⟨s', t'⟩ := d'
  split
  · rw [Dependency.mk.injEq, eq_comm, @eq_comm _ _ t']
  · rw [Dependency.mk.injEq, eq_comm, @eq_comm _ _ t']

theorem Module.fill_fills (specifier : Bytes) (t : ModuleId) (mod : Module) :
    mod.Fills (mod.fill specifier t) where
  path := rfl
  source := rfl
  program := rfl
  dependencies := fun d' hd' => by
    obtain ⟨d, hd, hs, ht⟩ := Module.mem_fill.mp hd'
    refine ⟨d, hd, hs, fun hnone => ?_⟩
    rw [hnone] at ht
    split at ht
    · cases ht
    · exact ht.symm

theorem Module.fill_specifiers (specifier : Bytes) (t : ModuleId) (mod : Module) (s : Bytes) :
    (∃ d ∈ (mod.fill specifier t).dependencies, d.specifier = s) ↔
      ∃ d ∈ mod.dependencies, d.specifier = s := by
  constructor
  · rintro ⟨d', hd', rfl⟩
    obtain ⟨d, hd, hs, -⟩ := Module.mem_fill.mp hd'
    exact ⟨d, hd, hs.symm⟩
  · rintro ⟨d, hd, rfl⟩
    exact ⟨⟨d.specifier, if d.specifier = specifier then some t else d.target⟩,
      Module.mem_fill.mpr ⟨d, hd, rfl, rfl⟩, rfl⟩

theorem Module.Fills.refl (mod : Module) : mod.Fills mod :=
  ⟨rfl, rfl, rfl, fun d hd => ⟨d, hd, rfl, id⟩⟩

theorem Module.Fills.trans {a b c : Module} (h : a.Fills b) (h' : b.Fills c) : a.Fills c where
  path := h'.path.trans h.path
  source := h'.source.trans h.source
  program := h'.program.trans h.program
  dependencies := fun d'' hd'' => by
    obtain ⟨d', hd', hs', ht'⟩ := h'.dependencies d'' hd''
    obtain ⟨d, hd, hs, ht⟩ := h.dependencies d' hd'
    exact ⟨d, hd, hs'.trans hs, fun hnone => ht (ht' hnone)⟩

namespace Graph.Grows

variable {g g' g'' : Graph} {files : Files} {external : List Bytes}

theorem refl (g : Graph) : g.Grows g := ⟨id, fun h => ⟨_, h, .refl _⟩, rfl, rfl, rfl⟩

theorem trans (h : g.Grows g') (h' : g'.Grows g'') : g.Grows g'' where
  kinds := fun hs => h'.kinds (h.kinds hs)
  modules := fun hm => by
    obtain ⟨mod', hm', hfills⟩ := h.modules hm
    obtain ⟨mod'', hm'', hfills'⟩ := h'.modules hm'
    exact ⟨mod'', hm'', hfills.trans hfills'⟩
  entries := h'.entries.trans h.entries
  reports := h'.reports.trans h.reports
  silenced := h'.silenced.trans h.silenced

theorem modifyModule (g : Graph) (m : ModuleId) {f : Module → Module}
    (hf : ∀ mod : Module, mod.Fills (f mod)) : g.Grows (g.modifyModule m f) where
  kinds := id
  modules := fun {k mod} hk => by
    rw [module?_modifyModule]
    split
    · exact ⟨f mod, by rw [hk]; rfl, hf mod⟩
    · exact ⟨mod, hk, .refl mod⟩
  entries := rfl
  reports := rfl
  silenced := rfl

theorem path? (h : g.Grows g') (hm : g.path? m = some path) : g'.path? m = some path := by
  obtain ⟨mod, hmod, rfl⟩ := Option.map_eq_some_iff.mp hm
  obtain ⟨mod', hmod', hfills⟩ := h.modules hmod
  exact Option.map_eq_some_iff.mpr ⟨mod', hmod', hfills.path⟩

theorem imports (h : g.Grows g') (hm : g.Imports files external m d) :
    g'.Imports files external m d := by
  obtain ⟨mod, s, target, hmod, hs, hinside, hresolve, hd⟩ := hm
  obtain ⟨mod', hmod', hfills⟩ := h.modules hmod
  exact ⟨mod', s, target, hmod', hfills.program ▸ hs, hinside, hfills.path ▸ hresolve, h.path? hd⟩

theorem leads (h : g.Grows g') (hm : ReflTransGen (g.Imports files external) m d) :
    ReflTransGen (g'.Imports files external) m d := hm.lift id fun _ _ => h.imports

theorem lookedUp (h : g.Grows g') (hm : g.module? m = some mod) {s : Bytes}
    (hs : g.LookedUp external m s) : g'.LookedUp external m s := by
  intro hinside mod' hmod' d' hd' hspecifier hnone
  obtain ⟨mod'', hmod'', hfills⟩ := h.modules hm
  cases hmod'.symm.trans hmod''
  obtain ⟨d, hd, heq, ht⟩ := hfills.dependencies d' hd'
  exact hs hinside mod hm d hd (heq.symm.trans hspecifier) (ht hnone)

end Graph.Grows

/-! ## One module -/

theorem findModule?_some (h : g.findModule? path = some m) :
    ∃ mod, g.module? m = some mod ∧ mod.path = path := by
  obtain ⟨hlt, hpath, -⟩ := Array.findIdx?_eq_some_iff_getElem.mp h
  exact ⟨g.modules[m], Array.getElem?_eq_getElem hlt, of_decide_eq_true hpath⟩

namespace Graph.Fetched

variable {g g' : Graph} {files : Files} {external : List Bytes}

theorem loadModule {source : Bytes} (hg : g.Fetched files external)
    (hsource : files.lookup path = some source) (hnew : g.findModule? path = none)
    (h : (loadModule path source).run.run g = (.ok id, g')) :
    g'.Fetched files external ∧ g.Grows g' ∧ g'.path? id = some path ∧ g.module? id = none ∧
      ∀ m mod, g'.module? m = some mod → g.module? m = none → m = id := by
  obtain ⟨p, mod, hparse, hdeclare, rfl, hloaded⟩ := loadModule_ok h
  have hreads := Module.Reads.declare hdeclare
  have hnames := Module.declare_names hdeclare
  have hid : g'.module? g.modules.size = some mod := by rw [hloaded.modules, if_pos rfl]
  have hnone : g.module? g.modules.size = none := by simp [Graph.module?]
  have hold : ∀ {k mod}, g.module? k = some mod → g'.module? k = some mod := by
    intro k mod hk
    rw [hloaded.modules, if_neg, hk]
    rintro rfl
    rw [hnone] at hk
    cases hk
  have hmodule : ∀ {k mod'}, g'.module? k = some mod' →
      (k = g.modules.size ∧ mod' = mod) ∨ g.module? k = some mod' := by
    intro k mod' hk
    rw [hloaded.modules] at hk
    split at hk
    · rename_i heq
      cases hk
      exact .inl ⟨heq, rfl⟩
    · exact .inr hk
  have hnumbered := Program.parse_numbered hparse
  have hgrows : g.Grows g' := by
    refine ⟨fun hs => ?_, fun hk => ⟨_, hold hk, .refl _⟩, hloaded.entries, hloaded.reports,
      hloaded.silenced⟩
    obtain ⟨scope, hscope, rfl⟩ := Option.map_eq_some_iff.mp hs
    obtain ⟨scope', hscope', hkind, -⟩ := hnumbered.entered.scopes hscope
    rw [hloaded.symbols]
    exact Option.map_eq_some_iff.mpr ⟨scope', hscope', hkind⟩
  have hpath : g'.path? g.modules.size = some path :=
    Option.map_eq_some_iff.mpr ⟨mod, hid, hreads.path⟩
  -- No other module has the path.
  have hother : ∀ {k mod'}, g.module? k = some mod' → mod'.path ≠ path := by
    intro k mod' hk heq
    have hall := Array.findIdx?_eq_none_iff.mp hnew mod' (Array.mem_of_getElem? hk)
    simp [heq] at hall
  refine ⟨⟨fun hk => ?_, fun hk => ?_, fun hk => ?_, fun {m n q} hm hn => ?_, fun hk => ?_,
    fun hk hd ht => ?_⟩, hgrows, hpath, hnone, fun m mod' hm hnew' => ?_⟩
  · rcases hmodule hk with ⟨rfl, rfl⟩ | hk
    · rw [hreads.path, hreads.source]
      exact hsource
    · exact hg.source hk
  · rcases hmodule hk with ⟨rfl, rfl⟩ | hk
    · rw [hreads.path, hreads.source]
      exact ⟨_, _, p, hparse, hreads.program.symm⟩
    · exact hg.parsed hk
  · rcases hmodule hk with ⟨rfl, rfl⟩ | hk
    · rw [hreads.program, hloaded.symbols]
      exact hnumbered.scope
    · exact hgrows.kinds (hg.scope hk)
  · obtain ⟨mod1, hm1, rfl⟩ := Option.map_eq_some_iff.mp hm
    obtain ⟨mod2, hn2, heq⟩ := Option.map_eq_some_iff.mp hn
    rcases hmodule hm1 with ⟨rfl, rfl⟩ | hm1 <;> rcases hmodule hn2 with ⟨rfl, rfl⟩ | hn2
    · rfl
    · exact absurd (heq.trans hreads.path) (hother hn2)
    · exact absurd (heq.symm.trans hreads.path) (hother hm1)
    · exact hg.once (Option.map_eq_some_iff.mpr ⟨_, hm1, rfl⟩)
        (Option.map_eq_some_iff.mpr ⟨_, hn2, heq⟩)
  · rcases hmodule hk with ⟨rfl, rfl⟩ | hk
    · intro s
      rw [hnames.specifiers, hreads.program]
      simp
    · exact hg.specifiers hk
  · rcases hmodule hk with ⟨rfl, rfl⟩ | hk
    · rcases hnames.targets _ hd with hd | hnone
      · cases hd
      · rw [hnone] at ht
        cases ht
    · obtain ⟨hinside, target, hresolve, hpath'⟩ := hg.targets hk hd ht
      exact ⟨hinside, target, hresolve, hgrows.path? hpath'⟩
  · rcases hmodule hm with ⟨rfl, -⟩ | hm
    · rfl
    · rw [hnew'] at hm
      cases hm

theorem fill {specifier target : Bytes} (hg : g.Fetched files external)
    (hid : g.module? id = some mod) (hinside : isInside external specifier = true)
    (hresolve : resolve? files.isModule mod.path specifier = some target)
    (ht : g.path? t = some target) :
    (g.modifyModule id (Module.fill specifier t)).Fetched files external := by
  have hgrows := Grows.modifyModule g id fun mod => Module.fill_fills specifier t mod
  have hmodule : ∀ {k mod'}, (g.modifyModule id (Module.fill specifier t)).module? k = some mod' →
      (k = id ∧ mod' = mod.fill specifier t) ∨ g.module? k = some mod' := by
    intro k mod' hk
    rw [module?_modifyModule] at hk
    split at hk
    · rename_i heq
      rw [← heq, hid] at hk
      exact .inl ⟨heq.symm, (Option.some.inj hk).symm⟩
    · exact .inr hk
  refine ⟨fun hk => ?_, fun hk => ?_, fun hk => ?_, fun {m n q} hm hn => ?_, fun hk => ?_,
    fun hk hd htarget => ?_⟩
  · rcases hmodule hk with ⟨rfl, rfl⟩ | hk
    · exact (hg.source hid :)
    · exact hg.source hk
  · rcases hmodule hk with ⟨rfl, rfl⟩ | hk
    · exact (hg.parsed hid :)
    · exact hg.parsed hk
  · rcases hmodule hk with ⟨rfl, rfl⟩ | hk
    · exact (hg.scope hid :)
    · exact (hg.scope hk :)
  · have hback : ∀ {m}, (g.modifyModule id (Module.fill specifier t)).path? m = some q →
        g.path? m = some q := by
      intro m hm
      obtain ⟨mod', hm', rfl⟩ := Option.map_eq_some_iff.mp hm
      rcases hmodule hm' with ⟨rfl, rfl⟩ | hm'
      · exact Option.map_eq_some_iff.mpr ⟨mod, hid, rfl⟩
      · exact Option.map_eq_some_iff.mpr ⟨mod', hm', rfl⟩
    exact hg.once (hback hm) (hback hn)
  · rcases hmodule hk with ⟨rfl, rfl⟩ | hk
    · exact fun s => (Module.fill_specifiers specifier t mod s).trans (hg.specifiers hid s)
    · exact hg.specifiers hk
  · rcases hmodule hk with ⟨rfl, rfl⟩ | hk
    · obtain ⟨d, hd, hs, htarget'⟩ := Module.mem_fill.mp hd
      rw [htarget] at htarget'
      rw [hs]
      split at htarget'
      · rename_i heq
        cases htarget'
        rw [heq]
        exact ⟨hinside, target, hresolve, hgrows.path? ht⟩
      · obtain ⟨hinside, target, hresolve, hpath⟩ := hg.targets hid hd htarget'.symm
        exact ⟨hinside, target, hresolve, hgrows.path? hpath⟩
    · obtain ⟨hinside, target, hresolve, hpath⟩ := hg.targets hk hd htarget
      exact ⟨hinside, target, hresolve, hgrows.path? hpath⟩

end Graph.Fetched

/-! ## Calls of the loader -/

/-- What a call of the loader adds: modules that one of them leads to, with all they name looked
up. -/
structure Graph.Fetches (files : Files) (external : List Bytes) (id : ModuleId) (g g' : Graph) :
    Prop where
  fetched : g'.Fetched files external
  grows : g.Grows g'
  lookedUp : ∀ m s, g.module? m = none → g'.LookedUp external m s
  leads : ∀ m mod, g'.module? m = some mod → g.module? m = none →
    ReflTransGen (g'.Imports files external) id m

section

variable {files : Files} {external : List Bytes}

namespace Graph.Fetches

theorem of_grows (hg' : g'.Fetched files external) (hgrows : g.Grows g')
    (hnone : ∀ m, g.module? m = none → g'.module? m = none) :
    Fetches files external id g g' where
  fetched := hg'
  grows := hgrows
  lookedUp := fun m s hm _ mod hmod => by
    rw [hnone m hm] at hmod
    cases hmod
  leads := fun m mod hmod hm => by
    rw [hnone m hm] at hmod
    cases hmod

theorem refl (hg : g.Fetched files external) :
    Fetches files external id g g := of_grows hg (.refl g) fun _ h => h

theorem trans {g'' : Graph} (h : Fetches files external id g g')
    (h' : Fetches files external t g' g'') (ht : ReflTransGen (g''.Imports files external) id t) :
    Fetches files external id g g'' where
  fetched := h'.fetched
  grows := h.grows.trans h'.grows
  lookedUp := fun m s hm => by
    cases hm' : g'.module? m with
    | none => exact h'.lookedUp m s hm'
    | some mod => exact h'.grows.lookedUp hm' (h.lookedUp m s hm)
  leads := fun m mod hmod hm => by
    cases hm' : g'.module? m with
    | none => exact ht.trans (h'.leads m mod hmod hm')
    | some mod' => exact h'.grows.leads (h.leads m mod' hm' hm)

end Graph.Fetches

def LoadsPaths (files : Files) (external : List Bytes) (load : Bytes → BuildM ModuleId) : Prop :=
  ∀ path g id g', g.Fetched files external → (load path).run.run g = (.ok id, g') →
    Fetches files external id g g' ∧ g'.path? id = some path

theorem loadDependency_fetches {load : Bytes → BuildM ModuleId}
    (hload : LoadsPaths files external load) {d : Dependency} (hg : g.Fetched files external)
    (hid : g.module? id = some mod) (hd : d.specifier ∈ mod.program.specifiers)
    (h : (loadDependency files external load id mod.path d).run.run g = (.ok ⟨⟩, g')) :
    Fetches files external id g g' ∧ g'.LookedUp external id d.specifier := by
  unfold loadDependency at h
  split at h
  · rename_i houtside
    cases h
    have hmodules : ∀ m, (g.addExternalSource d.specifier).module? m = g.module? m := fun m => by
      unfold addExternalSource
      split <;> rfl
    have hsymbols : (g.addExternalSource d.specifier).symbols = g.symbols := by
      unfold addExternalSource
      split <;> rfl
    have hgrows : g.Grows (g.addExternalSource d.specifier) := by
      refine ⟨fun hs => hsymbols ▸ hs, fun hm => ⟨_, (hmodules _).trans hm, .refl _⟩, ?_, ?_, ?_⟩ <;>
      · unfold addExternalSource
        split <;> rfl
    have htext : g.SameText (g.addExternalSource d.specifier) :=
      ⟨fun m => by rw [hmodules], fun s => by rw [hsymbols]⟩
    refine ⟨.of_grows (htext.fetched hg) hgrows fun m => (hmodules m).trans, fun hinside => ?_⟩
    rw [isInside] at hinside
    simp_all
  · rename_i houtside
    have hinside : isInside external d.specifier = true := by
      rw [isInside]
      simpa using houtside
    split at h
    · obtain ⟨_, _, -, h⟩ := bind_ok h
      cases h
    · rename_i target hresolve
      obtain ⟨t, g1, hrun, h⟩ := bind_ok h
      cases h
      obtain ⟨hfetches, ht⟩ := hload target g t g1 hg hrun
      obtain ⟨mod1, hid1, hfills⟩ := hfetches.grows.modules hid
      have himports : g1.Imports files external id t :=
        ⟨mod1, d.specifier, target, hid1, hfills.program ▸ hd, hinside, hfills.path ▸ hresolve, ht⟩
      have hfetches1 := (Fetches.refl hg).trans hfetches (.single himports)
      have hfilled := hfetches1.fetched.fill hid1 hinside (hfills.path ▸ hresolve) ht
      have hnone : ∀ m, g1.module? m = none →
          (g1.modifyModule id (Module.fill d.specifier t)).module? m = none := by
        intro m hm
        rw [module?_modifyModule, hm]
        split <;> rfl
      refine ⟨hfetches1.trans (.of_grows hfilled
        (.modifyModule g1 id (Module.fill_fills d.specifier t)) hnone) .refl, ?_⟩
      intro _ mod2 hmod2 e he hspecifier hnone
      rw [module?_modifyModule, if_pos rfl, hid1] at hmod2
      cases hmod2
      obtain ⟨e1, -, heq, htarget⟩ := Module.mem_fill.mp he
      rw [if_pos (heq.symm.trans hspecifier), hnone] at htarget
      cases htarget

/-- Loading a path adds its module and all that is missing of what it leads to. -/
theorem load_fetches (files : Files) (external : List Bytes) (n : Nat) :
    LoadsPaths files external (load files external n) := by
  induction n with
  | zero =>
    intro path g id g' _ h
    cases h
  | succ n ih =>
    intro path g id g' hg h
    replace h := get_ok h
    split at h
    · rename_i hfound
      cases h
      refine ⟨.refl hg, ?_⟩
      obtain ⟨mod, hmod, hpath⟩ := findModule?_some hfound
      exact Option.map_eq_some_iff.mpr ⟨mod, hmod, hpath⟩
    · cases h
    · rename_i source hnew hsource
      obtain ⟨id', g1, hload, h⟩ := bind_ok h
      obtain ⟨hg1, hgrows, hpath, hnone, honly⟩ := hg.loadModule hsource hnew hload
      replace h := get_ok h
      obtain ⟨_, g2, hloop, h⟩ := bind_ok h
      cases h
      obtain ⟨mod, hid, rfl⟩ := Option.map_eq_some_iff.mp hpath
      rw [hid] at hloop
      -- After each step of the loop one more specifier is looked up.
      have hstep : ∀ d ∈ mod.dependencies, ∀ g2 g3, Fetches files external id g1 g2 →
          (loadDependency files external (load files external n) id mod.path d).run.run g2 =
            (.ok ⟨⟩, g3) →
          Fetches files external id g1 g3 ∧ g3.LookedUp external id d.specifier ∧
            ∀ e : Dependency, g2.LookedUp external id e.specifier →
              g3.LookedUp external id e.specifier := by
        intro d hd g2 g3 hg2 hrun
        obtain ⟨mod2, hid2, hfills⟩ := hg2.grows.modules hid
        have hspecifier : d.specifier ∈ mod2.program.specifiers := by
          rw [hfills.program]
          exact (hg1.specifiers hid _).mp ⟨d, hd, rfl⟩
        rw [← hfills.path] at hrun
        obtain ⟨hnext, hlookedUp⟩ := loadDependency_fetches ih hg2.fetched hid2 hspecifier hrun
        exact ⟨hg2.trans hnext .refl, hlookedUp, fun e he => hnext.grows.lookedUp hid2 he⟩
      obtain ⟨hfetches, hall, -⟩ := forM_each hstep (.refl hg1) hloop
      refine ⟨⟨hfetches.fetched, hgrows.trans hfetches.grows, fun m s hm => ?_,
        fun m mod' hmod' hm => ?_⟩, hfetches.grows.path? hpath⟩
      · cases hm1 : g1.module? m with
        | none => exact hfetches.lookedUp m s hm1
        | some mod1 =>
          cases honly m mod1 hm1 hm
          intro hinside mod2 hmod2 e he hspecifier
          obtain ⟨mod3, hmod3, hfills⟩ := hfetches.grows.modules hid
          cases hmod2.symm.trans hmod3
          obtain ⟨d, hd, heq, -⟩ := hfills.dependencies e he
          exact hall d hd (heq ▸ hspecifier ▸ hinside) mod2 hmod2 e he heq
      · cases hm1 : g1.module? m with
        | none => exact hfetches.leads m mod' hmod' hm1
        | some mod1 =>
          cases honly m mod1 hm1 hm
          exact .refl

/-! ## All entries -/

def Graph.EntryFor (files : Files) (g : Graph) (entry : Bytes) (m : ModuleId) : Prop :=
  ∃ path, Specifier.resolveEntry? files.isModule entry = some path ∧ g.path? m = some path

/-- What holds of the modules once some entries are loaded: nothing is missing of what they lead to,
and there is nothing else. -/
structure Graph.Gathered (files : Files) (entries : List Bytes) (o : BuildOptions) (g : Graph) :
    Prop extends Graph.Fetched files o.external g where
  lookedUp : ∀ m s, g.LookedUp o.external m s
  entry : ∀ e ∈ g.entries, ∃ entry ∈ entries, g.EntryFor files entry e
  needed : ∀ m mod, g.module? m = some mod →
    ∃ e ∈ g.entries, ReflTransGen (g.Imports files o.external) e m
  quiet : g.diagnostics.entries = []
  silenced : g.diagnostics.silenced = o.start.diagnostics.silenced

def Graph.enterEntry (g : Graph) (id : ModuleId) : Graph :=
  if g.entries.contains id then g
  else { g.modifyModule id fun m => { m with isEntry := true } with entries := g.entries ++ [id] }

theorem mem_enterEntry {e : ModuleId} : e ∈ (g.enterEntry id).entries ↔ e ∈ g.entries ∨ e = id := by
  unfold Graph.enterEntry
  split
  · rename_i hknown
    refine ⟨.inl, fun he => he.elim (fun h => h) ?_⟩
    rintro rfl
    exact List.contains_iff_mem.mp hknown
  · simp

theorem enterEntry_sameText (g : Graph) (id : ModuleId) : g.SameText (g.enterEntry id) := by
  unfold Graph.enterEntry
  split
  · exact ⟨fun _ => rfl, fun _ => rfl⟩
  · refine ⟨fun m => ?_, fun _ => rfl⟩
    show ((g.modifyModule id fun m => { m with isEntry := true }).module? m).map Module.text = _
    rw [module?_modifyModule]
    split
    · rw [Option.map_map]
      rfl
    · rfl

theorem enterEntry_diagnostics (g : Graph) (id : ModuleId) :
    (g.enterEntry id).diagnostics = g.diagnostics := by
  unfold Graph.enterEntry
  split <;> rfl

theorem loadEntry_gathers {entries : List Bytes} {o : BuildOptions} {entry : Bytes}
    (hentry : entry ∈ entries) (hg : g.Gathered files entries o)
    (h : (loadEntry files o.external entry).run.run g = (.ok ⟨⟩, g')) :
    g'.Gathered files entries o ∧ (∃ e ∈ g'.entries, g'.EntryFor files entry e) ∧
      ∀ x, (∃ e ∈ g.entries, g.EntryFor files x e) → ∃ e ∈ g'.entries, g'.EntryFor files x e := by
  unfold loadEntry at h
  split at h
  · obtain ⟨_, _, -, h⟩ := bind_ok h
    cases h
  · rename_i path hresolve
    obtain ⟨id, g1, hload, h⟩ := bind_ok h
    obtain ⟨hfetches, hpath⟩ := load_fetches _ _ _ _ _ _ _ hg.toFetched hload
    have hg2 : g1.enterEntry id = g' := congrArg Prod.snd h
    subst hg2
    have htext := enterEntry_sameText g1 id
    have hentries : ∀ e, e ∈ (g1.enterEntry id).entries ↔ e ∈ g.entries ∨ e = id := fun e => by
      rw [mem_enterEntry, hfetches.grows.entries]
    have hfor : ∀ {x e}, g.EntryFor files x e → (g1.enterEntry id).EntryFor files x e := by
      rintro x e ⟨path, hx, he⟩
      exact ⟨path, hx, (htext.path? e).trans (hfetches.grows.path? he)⟩
    have hown : (g1.enterEntry id).EntryFor files entry id :=
      ⟨path, hresolve, (htext.path? id).trans hpath⟩
    refine ⟨⟨htext.fetched hfetches.fetched, fun m s => htext.lookedUp ?_, fun e he => ?_,
      fun m mod2 hmod2 => ?_, ?_, ?_⟩, ⟨id, (hentries id).mpr (.inr rfl), hown⟩, fun x hx => ?_⟩
    · cases hm : g.module? m with
      | none => exact hfetches.lookedUp m s hm
      | some mod => exact hfetches.grows.lookedUp hm (hg.lookedUp m s)
    · rcases (hentries e).mp he with he | rfl
      · obtain ⟨x, hx, hfor'⟩ := hg.entry e he
        exact ⟨x, hx, hfor hfor'⟩
      · exact ⟨entry, hentry, hown⟩
    · obtain ⟨mod1, hmod1, -⟩ := htext.symm.module? hmod2
      have hlift : ∀ {e}, ReflTransGen (g1.Imports files o.external) e m →
          ReflTransGen ((g1.enterEntry id).Imports files o.external) e m :=
        fun h => h.lift (fun m => m) fun _ _ => htext.imports
      cases hm : g.module? m with
      | none => exact ⟨id, (hentries id).mpr (.inr rfl), hlift (hfetches.leads m mod1 hmod1 hm)⟩
      | some mod =>
        obtain ⟨e, he, hleads⟩ := hg.needed m mod hm
        exact ⟨e, (hentries e).mpr (.inl he), hlift (hfetches.grows.leads hleads)⟩
    · rw [enterEntry_diagnostics, hfetches.grows.reports, hg.quiet]
    · rw [enterEntry_diagnostics, hfetches.grows.silenced, hg.silenced]
    · obtain ⟨e, he, hx⟩ := hx
      exact ⟨e, (hentries e).mpr (.inl he), hfor hx⟩

theorem loadEntries_gathers {entries : List Bytes} {o : BuildOptions}
    (h : (entries.forM (loadEntry files o.external)).run.run o.start = (.ok ⟨⟩, g)) :
    g.Gathered files entries o ∧
      ∀ entry ∈ entries, ∃ e ∈ g.entries, g.EntryFor files entry e := by
  have hmodule : ∀ m, o.start.module? m = none := fun _ => rfl
  have hpath : ∀ m, o.start.path? m = none := fun _ => rfl
  have hstart : o.start.Gathered files entries o := by
    refine ⟨⟨?_, ?_, ?_, ?_, ?_, ?_⟩, fun m s _ mod hm => ?_, ?_, ?_, rfl, rfl⟩
    · exact fun hm => by cases (hmodule _).symm.trans hm
    · exact fun hm => by cases (hmodule _).symm.trans hm
    · exact fun hm => by cases (hmodule _).symm.trans hm
    · exact fun hm => by cases (hpath _).symm.trans hm
    · exact fun hm => by cases (hmodule _).symm.trans hm
    · exact fun hm => by cases (hmodule _).symm.trans hm
    · cases (hmodule _).symm.trans hm
    · exact fun e he => by cases he
    · exact fun m mod hm => by cases (hmodule _).symm.trans hm
  obtain ⟨hg, hall, -⟩ := forM_each
    (fun entry hentry g g' hg hrun => loadEntry_gathers hentry hg hrun) hstart h
  exact ⟨hg, hall⟩

/-! ## Enough steps -/

/-- Every module has a file of its own. -/
theorem Graph.Fetched.size_le (hg : g.Fetched files external) : g.modules.size ≤ files.length := by
  have hpath : ∀ {k} (hk : k < g.modules.size), g.path? k = some g.modules[k].path := fun hk => by
    rw [Graph.path?, Graph.module?, Array.getElem?_eq_getElem hk]
    rfl
  have hnodup : (g.modules.toList.map Module.path).Nodup := by
    rw [List.nodup_iff_injective_getElem]
    rintro ⟨i, hi⟩ ⟨j, hj⟩ heq
    simp only [List.length_map, Array.length_toList] at hi hj
    simp only [List.getElem_map, Array.getElem_toList] at heq
    exact Fin.ext (hg.once (hpath hi) ((hpath hj).trans (congrArg some heq.symm)))
  have hfiles : g.modules.toList.map Module.path ⊆ files.map Prod.fst := by
    intro path hmem
    obtain ⟨mod, hmod, rfl⟩ := List.mem_map.mp hmem
    obtain ⟨k, hk⟩ := List.mem_iff_getElem?.mp hmod
    rw [Array.getElem?_toList] at hk
    obtain ⟨l₁, l₂, heq, -⟩ := List.lookup_eq_some_iff.mp (hg.source hk)
    simp [heq]
  simpa using (hnodup.subperm hfiles).length_le

theorem Graph.Grows.size_le (h : g.Grows g') : g.modules.size ≤ g'.modules.size := by
  by_contra hlt
  rw [Nat.not_le] at hlt
  obtain ⟨mod, hmod, -⟩ := h.modules (Array.getElem?_eq_getElem hlt)
  simp [Graph.module?] at hmod

theorem Graph.Grows.size_lt {id : ModuleId} {mod : Module} (h : g.Grows g')
    (hid : g'.module? id = some mod) (hnone : g.module? id = none) :
    g.modules.size < g'.modules.size := by
  refine lt_of_le_of_ne h.size_le fun heq => ?_
  obtain ⟨hlt, -⟩ := Array.getElem?_eq_some_iff.mp hid
  rw [← heq] at hlt
  rw [module?, Array.getElem?_eq_getElem hlt] at hnone
  cases hnone

theorem BuildM.bind_congr {α β : Type} {m m' : BuildM α} {f f' : α → BuildM β}
    (hm : m.run.run g = m'.run.run g)
    (hf : ∀ a g', m.run.run g = (.ok a, g') → (f a).run.run g' = (f' a).run.run g') :
    (m >>= f).run.run g = (m' >>= f').run.run g := by
  show ExceptT.bindCont f (m.run.run g).1 (m.run.run g).2 =
    ExceptT.bindCont f' (m'.run.run g).1 (m'.run.run g).2
  rw [← hm]
  cases hrun : m.run.run g with
  | mk r g' =>
    cases r with
    | ok a => exact hf a g' hrun
    | error e => rfl

/-- A loop is the same with steps that are the same wherever it comes to. -/
theorem BuildM.forM_congr {α : Type} {P : Graph → Prop} {f f' : α → BuildM PUnit} {l : List α}
    (hf : ∀ x ∈ l, ∀ g, P g → (f x).run.run g = (f' x).run.run g ∧
      ∀ g', (f x).run.run g = (.ok ⟨⟩, g') → P g') :
    ∀ {g}, P g → (l.forM f).run.run g = (l.forM f').run.run g := by
  induction l with
  | nil => exact fun _ => rfl
  | cons x l ih =>
    intro g hg
    obtain ⟨hx, hl⟩ := List.forall_mem_cons.mp hf
    obtain ⟨hsame, hnext⟩ := hx g hg
    exact bind_congr hsame fun _ g' hrun => ih hl (hnext g' hrun)

theorem loadDependency_congr {load load' : Bytes → BuildM ModuleId} {d : Dependency}
    (h : ∀ target, (load target).run.run g = (load' target).run.run g) :
    (loadDependency files external load id path d).run.run g =
      (loadDependency files external load' id path d).run.run g := by
  unfold loadDependency
  split
  · rfl
  · split
    · rfl
    · exact bind_congr (h _) fun _ _ _ => rfl

/-- **Loading does not run out of steps.** With as many steps as there are files that are not loaded,
and one more, the number of steps does not matter: every module that is loaded takes one. -/
theorem load_steps {n : Nat} : ∀ {path : Bytes} {g : Graph}, g.Fetched files external →
    files.length < n + g.modules.size →
    (load files external (n + 1) path).run.run g = (load files external n path).run.run g := by
  induction n with
  | zero =>
    intro path g hg hn
    have hsize := hg.size_le
    omega
  | succ n ih =>
    intro path g hg hn
    rw [load.eq_2, load.eq_2]
    refine bind_congr rfl fun g0 g1 hget => ?_
    cases hget
    cases hfound : g.findModule? path with
    | some id => rfl
    | none =>
      cases hsource : files.lookup path with
      | none => rfl
      | some source =>
        refine bind_congr rfl fun id g1 hload => ?_
        obtain ⟨hg1, hgrows, hpath, hnone, -⟩ := hg.loadModule hsource hfound hload
        obtain ⟨mod, hid, rfl⟩ := Option.map_eq_some_iff.mp hpath
        have hsize := hgrows.size_lt hid hnone
        refine bind_congr rfl fun g2 g3 hget => ?_
        cases hget
        rw [hid]
        refine bind_congr (forM_congr (P := Fetches files external id g1) (fun d hd g2 hg2 => ?_)
          (.refl hg1)) fun _ _ _ => rfl
        obtain ⟨mod2, hid2, hfills⟩ := hg2.grows.modules hid
        have hspecifier : d.specifier ∈ mod2.program.specifiers := by
          rw [hfills.program]
          exact (hg1.specifiers hid _).mp ⟨d, hd, rfl⟩
        refine ⟨loadDependency_congr fun target => ih hg2.fetched ?_, fun g3 hrun => ?_⟩
        · have hle := hg2.grows.size_le
          omega
        · rw [← hfills.path] at hrun
          obtain ⟨hnext, -⟩ := loadDependency_fetches (load_fetches files external _) hg2.fetched hid2
            hspecifier hrun
          exact hg2.trans hnext .refl

/-- So the steps that an entry is loaded with are enough. -/
theorem load_enough (hg : g.Fetched files external) {n : Nat} (hn : files.length + 1 ≤ n) :
    (load files external n path).run.run g =
      (load files external (files.length + 1) path).run.run g := by
  induction n, hn using Nat.le_induction with
  | base => rfl
  | succ n hn ih => rw [load_steps hg (by omega), ih]

end

end Winnow
