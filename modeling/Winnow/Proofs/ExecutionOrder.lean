import Winnow.Proofs.Fetching
import Winnow.Proofs.Ordering

/-!
# Execution order

A build leaves the modules that the entries lead to in the order in which they run
(`Graph.BuiltFrom.inExecutionOrder`). What a module leads to is read off the programs and the files
alone (`Graph.Imports`); that the loader found these modules is `Graph.Gathered`, that the search
put them into order is `ModuleOrder.Sorted`, and nothing that comes after touches them.
-/

namespace Winnow

open Relation Winnow.Graph List

variable {g g' loaded : Graph} {m : ModuleId}

/-! ## Sorting -/

def Graph.cycleWarning (g : Graph) (cycle : List ModuleId) : Diagnostic :=
  { severity := .warning, code := Code.circularDependency.text, message := g.cycleMessage cycle,
    file := [] }

theorem Graph.SameText.pathOf (h : g.SameText g') (m : ModuleId) : g'.pathOf m = g.pathOf m := by
  have hpath := h.path? m
  rw [Graph.path?, Graph.path?] at hpath
  rw [Graph.pathOf, Graph.pathOf, hpath]

theorem Graph.SameText.cycleMessage (h : g.SameText g') (cycle : List ModuleId) :
    g'.cycleMessage cycle = g.cycleMessage cycle := by
  rw [Graph.cycleMessage, Graph.cycleMessage, funext h.pathOf]

def Graph.warnCycles (g : Graph) (cycles : List (List ModuleId)) : Graph :=
  cycles.foldl (fun g cycle => g.warnBundle .circularDependency (g.cycleMessage cycle)) g

theorem warnCycles_frame (cycles : List (List ModuleId)) (g : Graph) :
    g.warnCycles cycles = { g with diagnostics := (g.warnCycles cycles).diagnostics } := by
  induction cycles generalizing g with
  | nil => rfl
  | cons cycle cycles ih => exact ih _

theorem warnCycles_entries (cycles : List (List ModuleId)) (g : Graph) :
    (g.warnCycles cycles).diagnostics.entries =
      if Code.circularDependency.text ∈ g.diagnostics.silenced then g.diagnostics.entries
      else g.diagnostics.entries ++ cycles.map g.cycleWarning := by
  induction cycles generalizing g with
  | nil =>
    rw [map_nil, append_nil, ite_self]
    rfl
  | cons cycle cycles ih =>
    have hadd : (g.warnBundle .circularDependency (g.cycleMessage cycle)).diagnostics =
        g.diagnostics.add (g.cycleWarning cycle) := rfl
    rw [show g.warnCycles (cycle :: cycles) =
      (g.warnBundle .circularDependency (g.cycleMessage cycle)).warnCycles cycles from rfl, ih, hadd,
      Diagnostics.add]
    by_cases hsilenced : Code.circularDependency.text ∈ g.diagnostics.silenced
    · have hskip : (g.cycleWarning cycle).severity ≠ .error ∧
          g.diagnostics.silenced.contains (g.cycleWarning cycle).code = true :=
        ⟨(fun h => by cases h), contains_iff_mem.mpr hsilenced⟩
      rw [if_pos hskip, if_pos hsilenced, if_pos hsilenced]
    · have hkeep : ¬((g.cycleWarning cycle).severity ≠ .error ∧
          g.diagnostics.silenced.contains (g.cycleWarning cycle).code = true) :=
        fun h => hsilenced (contains_iff_mem.mp h.2)
      rw [if_neg hkeep, if_neg hsilenced, if_neg hsilenced, append_assoc]
      rfl

/-- Numbers the modules of an order from some number on. -/
def Graph.numberModules (g : Graph) (order : List ModuleId) (first : Nat) : Graph :=
  (order.zipIdx first).foldl (fun g p =>
    g.modifyModule p.1 fun mod => { mod with execIndex := some p.2 }) g

theorem numberModules_module? {order : List ModuleId} (hnodup : order.Nodup) (g : Graph)
    (first : Nat) (m : ModuleId) :
    (g.numberModules order first).module? m = if m ∈ order then
      (g.module? m).map fun mod => { mod with execIndex := some (first + order.idxOf m) }
      else g.module? m := by
  induction order generalizing g first with
  | nil => rfl
  | cons x order ih =>
    obtain ⟨hx, hnodup⟩ := nodup_cons.mp hnodup
    rw [show g.numberModules (x :: order) first =
      (g.modifyModule x fun mod => { mod with execIndex := some first }).numberModules order
        (first + 1) from rfl, ih hnodup, module?_modifyModule]
    by_cases heq : x = m
    · subst heq
      rw [if_neg hx, if_pos rfl, if_pos mem_cons_self, idxOf_cons_self, Nat.add_zero]
    · rw [if_neg heq, idxOf_cons_ne _ heq, Nat.add_right_comm]
      simp only [mem_cons, Ne.symm heq, false_or]
      rfl

theorem numberModules_frame (order : List ModuleId) (g : Graph) (first : Nat) :
    g.numberModules order first =
      { g with modules := (g.numberModules order first).modules } := by
  induction order generalizing g first with
  | nil => rfl
  | cons x order ih => exact ih _ _

theorem sortModules_eq (g : Graph) : g.sortModules =
    { g.warnCycles g.executionOrder.cycles with order := g.executionOrder.order }.numberModules
      g.executionOrder.order 0 := rfl

/-- What sorting leaves of a graph in which nothing was reported. -/
structure Graph.SortedFrom (loaded g : Graph) : Prop where
  order : g.order = loaded.executionOrder.order
  text : loaded.SameText g
  execIndex : ∀ m ∈ g.order, ∀ mod, g.module? m = some mod →
    mod.execIndex = some (g.order.idxOf m)
  cycles : g.diagnostics.cycles = if Code.circularDependency.text ∈ loaded.diagnostics.silenced
    then [] else loaded.executionOrder.cycles.map loaded.cycleWarning

theorem sortModules_sortedFrom (hnodup : g.executionOrder.order.Nodup)
    (hquiet : g.diagnostics.entries = []) : g.SortedFrom g.sortModules := by
  have hframe := numberModules_frame g.executionOrder.order
    { g.warnCycles g.executionOrder.cycles with order := g.executionOrder.order } 0
  rw [← sortModules_eq] at hframe
  have hmodule : ∀ m, g.sortModules.module? m = if m ∈ g.executionOrder.order then
      (g.module? m).map fun mod => { mod with
        execIndex := some (g.executionOrder.order.idxOf m) } else g.module? m := by
    intro m
    rw [sortModules_eq, numberModules_module? hnodup, Nat.zero_add]
    rw [warnCycles_frame]
    rfl
  have horder : g.sortModules.order = g.executionOrder.order := by rw [hframe]
  have hkinds : g.sortModules.symbols = g.symbols := by
    rw [hframe]
    rw [warnCycles_frame]
  refine ⟨horder, ⟨fun m => ?_, fun s => by rw [hkinds]⟩, fun m hm mod hmod => ?_, ?_⟩
  · rw [hmodule]
    split
    · rw [Option.map_map]
      rfl
    · rfl
  · rw [horder] at hm ⊢
    rw [hmodule, if_pos hm] at hmod
    obtain ⟨mod0, -, rfl⟩ := Option.map_eq_some_iff.mp hmod
    rfl
  · have hentries : g.sortModules.diagnostics.entries =
        (g.warnCycles g.executionOrder.cycles).diagnostics.entries := by rw [hframe]
    rw [Diagnostics.cycles, hentries, warnCycles_entries, hquiet, nil_append]
    split
    · rfl
    · rw [filter_eq_self]
      intro d hd
      obtain ⟨c, -, rfl⟩ := mem_map.mp hd
      exact decide_eq_true rfl

theorem Graph.SortedFrom.sameOrder (h : loaded.SortedFrom g) (hsame : g.SameOrder g') :
    loaded.SortedFrom g' := by
  refine ⟨hsame.order.trans h.order, h.text.trans ⟨fun m => ?_, hsame.kinds⟩,
    fun m hm mod' hmod' => ?_, hsame.cycles.trans h.cycles⟩
  · have htext := congrArg (Option.map Module.text) (hsame.modules m)
    rw [Option.map_map, Option.map_map] at htext
    exact htext
  · have hplain := hsame.modules m
    rw [hmod'] at hplain
    obtain ⟨mod, hmod, hplain⟩ := Option.map_eq_some_iff.mp hplain.symm
    rw [hsame.order] at hm ⊢
    rw [← h.execIndex m hm mod hmod]
    exact (congrArg Module.execIndex hplain).symm

theorem Graph.SortedFrom.warning_iff (h : loaded.SortedFrom g) {w : Diagnostic} :
    w ∈ g.diagnostics.warnings ∧ w.code = Code.circularDependency.text ↔
      Code.circularDependency.text ∉ loaded.diagnostics.silenced ∧
        ∃ c ∈ loaded.executionOrder.cycles, loaded.cycleWarning c = w := by
  have hmem : w ∈ g.diagnostics.warnings ∧ w.code = Code.circularDependency.text ↔
      w ∈ g.diagnostics.cycles ∧ w.severity = .warning := by
    rw [Diagnostics.warnings, Diagnostics.ofSeverity, Diagnostics.cycles, mem_filter,
      mem_filter, beq_iff_eq, decide_eq_true_iff, and_right_comm]
  rw [hmem, h.cycles]
  split
  · rename_i hsilenced
    simp [hsilenced]
  · rename_i hsilenced
    rw [mem_map, and_iff_right hsilenced]
    refine and_iff_left_of_imp ?_
    rintro ⟨c, -, rfl⟩
    rfl

/-! ## What was loaded -/

namespace Graph.Gathered

variable {files : Files} {entries : List Bytes} {o : BuildOptions} {g : Graph}

theorem dependsOn_iff (hg : g.Gathered files entries o) {d : ModuleId} :
    g.DependsOn m d ↔ g.Imports files o.external m d := by
  rw [Graph.DependsOn, dependenciesOf, mem_filterMap]
  constructor
  · rintro ⟨e, he, htarget⟩
    cases hmod : g.module? m with
    | none =>
      rw [hmod] at he
      cases he
    | some mod =>
      rw [hmod] at he
      obtain ⟨hinside, target, hresolve, hpath⟩ := hg.targets hmod he htarget
      exact ⟨mod, e.specifier, target, hmod, (hg.specifiers hmod _).mp ⟨e, he, rfl⟩, hinside,
        hresolve, hpath⟩
  · rintro ⟨mod, s, target, hmod, hs, hinside, hresolve, hpath⟩
    obtain ⟨e, he, rfl⟩ := (hg.specifiers hmod s).mpr hs
    obtain ⟨t, ht⟩ := Option.ne_none_iff_exists'.mp (hg.lookedUp m _ hinside mod hmod e he rfl)
    obtain ⟨-, target', hresolve', hpath'⟩ := hg.targets hmod he ht
    cases hresolve.symm.trans hresolve'
    refine ⟨e, by rw [hmod]; exact he, ?_⟩
    rw [ht, hg.once hpath hpath']

theorem lt_of_path? {path : Bytes} (h : g.path? m = some path) : m < g.modules.size := by
  obtain ⟨mod, hmod, -⟩ := Option.map_eq_some_iff.mp h
  exact (Array.getElem?_eq_some_iff.mp hmod).1

theorem exists_module (hg : g.Gathered files entries o) (h : g.Needed m) :
    ∃ mod, g.module? m = some mod := by
  have hpath : ∃ path, g.path? m = some path := by
    obtain ⟨e, he, hleads⟩ := h
    cases hleads with
    | refl =>
      obtain ⟨-, -, path, -, hpath⟩ := hg.entry _ he
      exact ⟨path, hpath⟩
    | tail _ hd =>
      obtain ⟨-, -, path, -, -, -, -, hpath⟩ := hg.dependsOn_iff.mp hd
      exact ⟨path, hpath⟩
  obtain ⟨path, hpath⟩ := hpath
  obtain ⟨mod, hmod, -⟩ := Option.map_eq_some_iff.mp hpath
  exact ⟨mod, hmod⟩

theorem executionOrder (hg : g.Gathered files entries o) :
    g.executionOrder.Sorted g [] ∧ ∀ m, m ∈ g.executionOrder.order ↔ g.Needed m := by
  obtain ⟨hsorted, hentries⟩ := executionOrder_sorted
    (fun {m d} hd => by
      obtain ⟨mod, s, target, -, -, -, -, hpath⟩ := hg.dependsOn_iff.mp hd
      exact lt_of_path? hpath)
    (fun e he => by
      obtain ⟨entry, -, path, -, hpath⟩ := hg.entry e he
      exact lt_of_path? hpath)
  exact ⟨hsorted, hsorted.mem_order hentries⟩

end Graph.Gathered

/-! ## The order of a build -/

def Graph.Reached (files : Files) (entries external : List Bytes) (g : Graph) (m : ModuleId) :
    Prop :=
  ∃ entry ∈ entries, ∃ e, g.EntryFor files entry e ∧
    ReflTransGen (g.Imports files external) e m

structure Graph.InExecutionOrder (files : Files) (entries : List Bytes) (o : BuildOptions)
    (g : Graph) : Prop where
  parsed : ∀ m mod, g.module? m = some mod → files.lookup mod.path = some mod.source ∧
    ∃ symbols first p, Program.parse mod.source (some m) (Module.defaultName mod.path) symbols
      first = .ok p ∧ p.program = mod.program
  once : ∀ m n path, g.path? m = some path → g.path? n = some path → m = n
  /-- Every specifier of a module that is not left outside means a module. -/
  found : ∀ m mod s, g.module? m = some mod → s ∈ mod.program.specifiers →
    Specifier.isInside o.external s = true → ∃ d target,
      Specifier.resolve? files.isModule mod.path s = some target ∧ g.path? d = some target
  entry : ∀ entry ∈ entries, ∃ m, g.EntryFor files entry m
  /-- The modules in order are those that an entry leads to, and there are no others. -/
  mem_order : ∀ m, m ∈ g.order ↔ g.Reached files entries o.external m
  all : ∀ m mod, g.module? m = some mod → m ∈ g.order
  nodup : g.order.Nodup
  execIndex : ∀ m ∈ g.order, ∃ mod, g.module? m = some mod ∧
    mod.execIndex = some (g.order.idxOf m)
  /-- What a module imports runs before it, unless that leads back to the module. -/
  before : ∀ m ∈ g.order, ∀ d, g.Imports files o.external m d →
    Before g.order d m ∨ ReflTransGen (g.Imports files o.external) d m
  cycles : ∀ w ∈ g.diagnostics.warnings, w.code = Code.circularDependency.text →
    ∃ c, IsCycle (g.Imports files o.external) c ∧ w.message = g.cycleMessage c
  /-- If there is a cycle and warnings about cycles are not silenced, there is a warning. -/
  warned : Code.circularDependency.text ∉ o.silence.map (fun c => Text.upper (Text.trim c)) →
    (∃ m ∈ g.order, TransGen (g.Imports files o.external) m m) →
    ∃ w ∈ g.diagnostics.warnings, w.code = Code.circularDependency.text

theorem Graph.Gathered.imports_eq {files : Files} {entries : List Bytes} {o : BuildOptions}
    (hloaded : loaded.Gathered files entries o) (h : loaded.SameText g) :
    g.Imports files o.external = loaded.DependsOn := by
  funext m d
  exact propext ⟨fun hd => hloaded.dependsOn_iff.mpr (h.symm.imports hd),
    fun hd => h.imports (hloaded.dependsOn_iff.mp hd)⟩

theorem Graph.Gathered.reached_iff {files : Files} {entries : List Bytes} {o : BuildOptions}
    (hloaded : loaded.Gathered files entries o)
    (hentries : ∀ entry ∈ entries, ∃ e ∈ loaded.entries, loaded.EntryFor files entry e)
    (h : loaded.SameText g) (m : ModuleId) :
    g.Reached files entries o.external m ↔ loaded.Needed m := by
  rw [Graph.Reached, hloaded.imports_eq h]
  constructor
  · rintro ⟨entry, hentry, e, ⟨path, hresolve, hpath⟩, hleads⟩
    obtain ⟨e', he', path', hresolve', hpath'⟩ := hentries entry hentry
    cases hresolve.symm.trans hresolve'
    cases hloaded.once ((h.path? e).symm.trans hpath) hpath'
    exact ⟨e, he', hleads⟩
  · rintro ⟨e, he, hleads⟩
    obtain ⟨entry, hentry, path, hresolve, hpath⟩ := hloaded.entry e he
    exact ⟨entry, hentry, e, ⟨path, hresolve, (h.path? e).trans hpath⟩, hleads⟩

/-- A build puts the modules into execution order. -/
theorem Graph.BuiltFrom.inExecutionOrder {files : Files} {entries : List Bytes} {o : BuildOptions}
    {g : Graph} (h : g.BuiltFrom files entries o) : g.InExecutionOrder files entries o := by
  obtain ⟨loaded, hload, -, hsame⟩ := h.stages
  obtain ⟨hloaded, hentries⟩ := loadEntries_gathers hload
  obtain ⟨hsorted, hmem⟩ := hloaded.executionOrder
  have hg := (sortModules_sortedFrom hsorted.nodup hloaded.quiet).sameOrder hsame
  have hfetched := hg.text.fetched hloaded.toFetched
  have himports := hloaded.imports_eq hg.text
  refine ⟨fun m mod hmod => ⟨hfetched.source hmod, hfetched.parsed hmod⟩,
    fun m n path hm hn => hfetched.once hm hn, fun m mod s hmod hs hinside => ?_,
    fun entry hentry => ?_, fun m => ?_, fun m mod hmod => ?_, ?_, fun m hm => ?_,
    fun m hm d hd => ?_, fun w hw hcode => ?_, fun hsilence hcyclic => ?_⟩
  · obtain ⟨e, he, rfl⟩ := (hfetched.specifiers hmod s).mpr hs
    have hfound := hg.text.lookedUp (hloaded.lookedUp m _) hinside mod hmod e he rfl
    obtain ⟨t, ht⟩ := Option.ne_none_iff_exists'.mp hfound
    obtain ⟨-, target, hresolve, hpath⟩ := hfetched.targets hmod he ht
    exact ⟨t, target, hresolve, hpath⟩
  · obtain ⟨e, -, path, hresolve, hpath⟩ := hentries entry hentry
    exact ⟨e, path, hresolve, (hg.text.path? e).trans hpath⟩
  · rw [hg.order, hmem, hloaded.reached_iff hentries hg.text]
  · obtain ⟨mod0, hmod0, -⟩ := hg.text.symm.module? hmod
    obtain ⟨e, he, hleads⟩ := hloaded.needed m mod0 hmod0
    rw [hg.order, hmem]
    exact ⟨e, he, hleads.lift (fun m => m) fun _ _ => hloaded.dependsOn_iff.mpr⟩
  · rw [hg.order]
    exact hsorted.nodup
  · obtain ⟨mod0, hmod0⟩ := hloaded.exists_module ((hmem m).mp (hg.order ▸ hm))
    obtain ⟨mod, hmod, -⟩ := hg.text.module? hmod0
    exact ⟨mod, hmod, hg.execIndex m hm mod hmod⟩
  · rw [himports] at hd ⊢
    rw [hg.order] at hm ⊢
    exact (hsorted.before m hm d hd).imp_right And.left
  · obtain ⟨-, c, hc, rfl⟩ := hg.warning_iff.mp ⟨hw, hcode⟩
    rw [himports]
    exact ⟨c, hsorted.cycles c hc, (hg.text.cycleMessage c).symm⟩
  · obtain ⟨m, hm, hcyclic⟩ := hcyclic
    rw [himports] at hcyclic
    rw [hg.order] at hm
    obtain ⟨c, hc⟩ := List.exists_mem_of_ne_nil _ (hsorted.cycles_ne_nil hm hcyclic)
    have hnot : Code.circularDependency.text ∉ loaded.diagnostics.silenced := by
      rw [hloaded.silenced]
      exact hsilence
    exact ⟨loaded.cycleWarning c, hg.warning_iff.mpr ⟨hnot, c, hc, rfl⟩⟩

/-- Two modules that import each other, one that the second imports, and one that nothing imports. -/
def crossing : Files :=
  [(utf8 "a.js", utf8 "import './b'; import 'pkg';"),
    (utf8 "b.js", utf8 "import './c.js'; export * from './a.js';"),
    (utf8 "c.js", utf8 "f();"), (utf8 "d.js", utf8 "g();")]

set_option maxRecDepth 100000 in
/-- The module that needs none comes first, then the two that need each other, with one warning. -/
theorem inExecutionOrder_crossing : ∃ g : Graph, g.BuiltFrom crossing [utf8 "a"] {} ∧
    g.order.map g.pathOf = [utf8 "c.js", utf8 "b.js", utf8 "a.js"] ∧
    g.diagnostics.warnings.map Diagnostic.message =
      [utf8 "Circular dependency: a.js -> b.js -> a.js"] ∧
    g.InExecutionOrder crossing [utf8 "a"] {} := by
  have hbuilt := Graph.builtFrom_ofFiles crossing [utf8 "a"] {} (by decide +kernel)
  exact ⟨_, hbuilt, by decide +kernel, by decide +kernel, hbuilt.inExecutionOrder⟩

end Winnow
