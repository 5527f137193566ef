import Winnow.Proofs.Resolving
import Winnow.Proofs.StarExports

/-!
# Members of namespaces, exports and imports

A variable of another module can be reached as a member of its namespace, as an export, or through
an import. `members_agree` says that all three ways lead to one variable, or none of them to any:
whichever is taken first, whatever is asked in between, and along diamonds and cycles of `export *`.

An import agrees with its export only if no search runs in circles (`Graph.TracingEnds`), as is the
case where imports go down a rank of the modules and nothing goes up (`tracingEnds_of_ranks`).
-/

namespace Winnow

open Winnow.Graph Conduct Relation

/-! ## Imports agree in built graphs -/

/-- Questions after which imports agree with exports as before. -/
def agreeing (leads : Call → Call → Prop) : Conduct where
  holds g := Linkable g ∧ g.Leads = leads ∧ g.Agreed
  allows := Linked
  refl := Linked.refl
  trans := Linked.trans

section

variable {leads : Call → Call → Prop}

variable (hends : WellFounded fun d c => leads c d)
include hends

theorem traceExport_agrees (m : ModuleId) (name : Bytes) (g : Graph) :
    (agreeing leads).Steps g (traceExport m name) fun _ _ => True := by
  rintro ⟨hg, rfl, hagreed⟩
  have hends : g.TracingEnds := hends
  obtain ⟨hl, hg', -, -, hfollows⟩ := (searches g.traceSteps).traceExportIn m name g hg
  obtain ⟨hagreed', -⟩ := hfollows (hends.enough_steps trivial) hends hagreed
  exact ⟨hl, ⟨hg', hl.leads, hagreed'⟩, trivial⟩

theorem traceImport_agrees (m : ModuleId) (name : Bytes) (g : Graph) :
    (agreeing leads).Steps g (traceImport m name) fun found g' => g'.Answered m name found := by
  rintro ⟨hg, rfl, hagreed⟩
  have hends : g.TracingEnds := hends
  obtain ⟨hl, hg', -, hanswered, hfollows⟩ := (searches g.traceSteps).traceImportIn m name g hg
  obtain ⟨hagreed', -⟩ := hfollows (hends.enough_steps trivial) hends hagreed
  exact ⟨hl, ⟨hg', hl.leads, hagreed'⟩, hanswered (traceSteps_pos g)⟩

theorem namespaceMembers_agrees (m : ModuleId) (g : Graph) :
    (agreeing leads).Steps g (namespaceMembers m) fun _ _ => True := by
  refine (Steps.filterMapM' (fun _ _ _ _ _ _ => trivial)
    (fun g name => ?_) _ g).imp fun _ _ _ _ => trivial
  exact Steps.bind' (traceExport_agrees hends m name g) fun _ _ _ _ => Steps.pure' fun _ => trivial

end

def Graph.ScopesOfModules (g : Graph) : Prop :=
  ∀ ⦃m mod⦄, g.module? m = some mod → g.symbols.kind? mod.program.scope = some .module

theorem Graph.SameOrder.scopesOfModules {g g' : Graph} (h : g.SameOrder g')
    (hg : g.ScopesOfModules) : g'.ScopesOfModules := by
  intro m mod' hmod'
  have hplain := h.modules m
  rw [hmod'] at hplain
  obtain ⟨mod, hmod, hsame⟩ := Option.map_eq_some_iff.mp hplain.symm
  have hscope : mod.program.scope = mod'.program.scope :=
    congrArg (fun mod => mod.program.scope) hsame
  rw [h.kinds, ← hscope]
  exact hg hmod

theorem Graph.SameOrder.leads {g g' : Graph} (h : g.SameOrder g') (hg : g.ScopesOfModules) :
    g'.Leads = g.Leads := by
  have hglobal : ∀ {m mod}, g.module? m = some mod →
      g.symbols.kind? mod.program.scope ≠ some .global := fun hm => by rw [hg hm]; nofun
  have hglobal' : ∀ {m mod'}, g'.module? m = some mod' →
      g.symbols.kind? mod'.program.scope ≠ some .global := fun hm => by
    rw [← h.kinds, h.scopesOfModules hg hm]
    nofun
  funext c d
  refine propext ⟨fun hc => hc.congr (fun m => (h.modules m).symm) fun hm hnone => ?_,
    fun hc => hc.congr h.modules fun hm hnone => ?_⟩
  · rwa [← h.names _ _ (hglobal' hm)]
  · rwa [h.names _ _ (hglobal hm)]

theorem Graph.Agreed.congr {g g' : Graph} (h : g.Agreed) (hmodules : g'.modules = g.modules) :
    g'.Agreed := by
  have hmodule : ∀ m, g'.module? m = g.module? m := fun m => by rw [module?, module?, hmodules]
  intro m mod x b t found hm hb htarget ht hstar hfound
  rw [hmodule] at hm ht
  rw [traced?, hmodule]
  exact h hm hb htarget ht hstar hfound

theorem Graph.Resolves.agreed {g g' : Graph} (h : g.Resolves g') (hg : Linkable g)
    (hends : g.TracingEnds) (hagreed : g.Agreed) : g'.Agreed := by
  cases h with
  | imported m name => exact (traceImport_agrees hends m name g ⟨hg, rfl, hagreed⟩).2.1.2.2
  | member m key => exact (namespaceMembers_agrees hends m g ⟨hg, rfl, hagreed⟩).2.1.2.2
  | _ => exact hagreed.congr rfl

theorem Graph.BuiltFrom.agreed {files : Files} {entries : List Bytes} {o : BuildOptions} {g : Graph}
    (h : g.BuiltFrom files entries o) : g.TracingEnds → g.Agreed := by
  have hboth : g.ScopesOfModules ∧ (g.TracingEnds → g.Agreed) := by
    refine h.induction (P := fun g => g.ScopesOfModules ∧ (g.TracingEnds → g.Agreed)) ?_ ?_
    · intro loaded hload
      have hloaded := sorted_loading hload
      refine ⟨fun _ _ => (sortModules_fetched hload).scope, fun _ => ?_⟩
      -- Nothing is written down yet.
      intro m mod x b t found hm _ _ _ _ hfound
      rw [hloaded.tracedImports hm] at hfound
      cases hfound
    · rintro g g' hg ⟨hscopes, hagreed⟩ hstep
      have hsame := hstep.sameOrder hg
      refine ⟨hsame.scopesOfModules hscopes, fun hends => ?_⟩
      have hends' : g.TracingEnds := by rwa [TracingEnds, ← hsame.leads hscopes]
      exact hstep.agreed hg hends' (hagreed hends')
  exact hboth.2

/-! ## Whatever is asked -/

/-- A graph after any questions for exports, imports and members. -/
inductive Graph.Searched (g : Graph) : Graph → Prop
  | refl : g.Searched g
  | traceExport {g'} (m : ModuleId) (name : Bytes) : g.Searched g' →
    g.Searched ((traceExport m name).run g').2
  | traceImport {g'} (m : ModuleId) (name : Bytes) : g.Searched g' →
    g.Searched ((traceImport m name).run g').2
  | namespaceMembers {g'} (m : ModuleId) : g.Searched g' →
    g.Searched ((namespaceMembers m).run g').2

namespace Graph.Searched

variable {g g' : Graph}

theorem trans {g'' : Graph} (h : g.Searched g') (h' : g'.Searched g'') : g.Searched g'' := by
  induction h' with
  | refl => exact h
  | traceExport m name _ ih => exact ih.traceExport m name
  | traceImport m name _ ih => exact ih.traceImport m name
  | namespaceMembers m _ ih => exact ih.namespaceMembers m

theorem linked (h : g.Searched g') (hg : Linkable g) : Linked g g' ∧ Linkable g' := by
  induction h with
  | refl => exact ⟨.refl g, hg⟩
  | traceExport m name _ ih =>
    obtain ⟨hl, hg', -⟩ := traceExport_links m name _ ih.2
    exact ⟨ih.1.trans hl, hg'⟩
  | traceImport m name _ ih =>
    obtain ⟨hl, hg', -⟩ := traceImport_links m name _ ih.2
    exact ⟨ih.1.trans hl, hg'⟩
  | namespaceMembers m _ ih =>
    obtain ⟨hl, hg', -⟩ := namespaceMembers_links m _ ih.2
    exact ⟨ih.1.trans hl, hg'⟩

theorem agreed (h : g.Searched g') (hg : Linkable g) (hends : g.TracingEnds) (hagreed : g.Agreed) :
    (agreeing g.Leads).holds g' := by
  induction h with
  | refl => exact ⟨hg, rfl, hagreed⟩
  | traceExport m name _ ih => exact (traceExport_agrees hends m name _ ih).2.1
  | traceImport m name _ ih => exact (traceImport_agrees hends m name _ ih).2.1
  | namespaceMembers m _ ih => exact (namespaceMembers_agrees hends m _ ih).2.1

end Graph.Searched

theorem traceImport_settles {leads : Call → Call → Prop} (hends : WellFounded fun d c => leads c d)
    {g : Graph} (hg : (agreeing leads).holds g) {k m : ModuleId} {mod : Module} {x : Bytes}
    {b : ImportBinding} (hk : g.module? k = some mod) (hb : mod.imports.lookup x = some b)
    (htarget : mod.target? b.specifier = some m) (hm : (g.module? m).isSome = true)
    (hname : starSource? b.imported = none) :
    ∃ found, ((traceImport k x).run g).1 = some found ∧
      ((traceImport k x).run g).2.Settles m b.imported found := by
  obtain ⟨hl, ⟨-, -, hagreed⟩, hwritten⟩ := traceImport_agrees hends k x g hg
  obtain ⟨mod', hk', he⟩ := hl.modules hk
  have himports : mod'.imports = mod.imports := congrArg (·.imports) he.plain
  have hb' : mod'.imports.lookup x = some b := by rwa [himports]
  obtain ⟨found, hfound, htraced⟩ := hwritten mod' b hk' hb'
  have hm' := congrArg Option.isSome (hl.module?_plain m)
  rw [Option.isSome_map, Option.isSome_map, hm] at hm'
  refine ⟨found, hfound, settles_of_traced hname (hagreed hk' hb' ?_ hm' ?_ htraced)⟩
  · rwa [Module.target?_congr he.plain]
  · exact ne_star_of_starSource? hname

theorem starSource?_eq_none {name : Bytes} (h : name.head? ≠ some (Bytes.code '*')) :
    starSource? name = none := by
  unfold starSource?
  split
  · exact absurd rfl h
  · rfl

/-- **A member of a namespace, the export of that name and every import of it are one variable.** A
name that does not start with a star is a member of the namespace of a module exactly if it is an
export, and every import of it binds the same, or nothing at all. It does not matter which of them
is asked for first, nor what is asked in between. -/
theorem members_agree {files : Files} {entries : List Bytes} {o : BuildOptions} {g₀ g₁ : Graph}
    (hbuilt : g₀.BuiltFrom files entries o) (h₁ : g₀.Searched g₁) (m : ModuleId) {name : Bytes}
    (hname : name.head? ≠ some (Bytes.code '*')) :
    (∀ g₂, ((namespaceMembers m).run g₁).2.Searched g₂ →
      ((traceExport m name).run g₂).1 = ((namespaceMembers m).run g₁).1.lookup name) ∧
    (∀ g₂, ((traceExport m name).run g₁).2.Searched g₂ →
      ((namespaceMembers m).run g₂).1.lookup name = ((traceExport m name).run g₁).1) ∧
    (g₀.TracingEnds → ∀ k mod x b, g₀.module? k = some mod → mod.imports.lookup x = some b →
      mod.target? b.specifier = some m → b.imported = name →
      (∀ g₂, ((namespaceMembers m).run g₁).2.Searched g₂ →
        ((traceImport k x).run g₂).1 = some (((namespaceMembers m).run g₁).1.lookup name)) ∧
      (∀ g₂, ((traceImport k x).run g₁).2.Searched g₂ →
        ((traceImport k x).run g₁).1 = some (((namespaceMembers m).run g₂).1.lookup name))) := by
  have hg0 := hbuilt.built.linkable
  have hname := starSource?_eq_none hname
  obtain ⟨-, hg1⟩ := h₁.linked hg0
  obtain ⟨-, hgm, -⟩ := namespaceMembers_links m g₁ hg1
  have hmembers := namespaceMembers_settles hg1 m name
  refine ⟨fun g₂ h2 => ?_, fun g₂ h2 => ?_, fun hends k mod x b hk hb htarget heq => ?_⟩
  · obtain ⟨hl, hg2⟩ := h2.linked hgm
    obtain ⟨hl', hg', -⟩ := traceExport_links m name g₂ hg2
    exact (hmembers.eq (traceExport_settles hg2 m hname) (hl.trans hl') hg').symm
  · obtain ⟨-, hge, -⟩ := traceExport_links m name g₁ hg1
    obtain ⟨hl, hg2⟩ := h2.linked hge
    obtain ⟨hl', hg', -⟩ := namespaceMembers_links m g₂ hg2
    exact ((traceExport_settles hg1 m hname).eq (namespaceMembers_settles hg2 m name)
      (hl.trans hl') hg').symm
  subst heq
  have hm := hbuilt.fetched.target hk htarget
  -- The import is there, and settles the same member, in every graph that is reached.
  have himport : ∀ {g}, g₀.Searched g → ∃ found, ((traceImport k x).run g).1 = some found ∧
      ((traceImport k x).run g).2.Settles m b.imported found := by
    intro g h
    obtain ⟨hl, -⟩ := h.linked hg0
    obtain ⟨mod', hk', he⟩ := hl.modules hk
    have himports : mod'.imports = mod.imports := congrArg (·.imports) he.plain
    have hm' := congrArg Option.isSome (hl.module?_plain m)
    rw [Option.isSome_map, Option.isSome_map, hm] at hm'
    exact traceImport_settles hends (h.agreed hg0 hends (hbuilt.agreed hends)) hk'
      (by rwa [himports]) (by rwa [Module.target?_congr he.plain]) hm' hname
  refine ⟨fun g₂ h2 => ?_, fun g₂ h2 => ?_⟩
  · obtain ⟨found, hfound, hsettles⟩ := himport ((h₁.namespaceMembers m).trans h2)
    obtain ⟨hl, hg2⟩ := h2.linked hgm
    obtain ⟨hl', hg', -⟩ := traceImport_links k x g₂ hg2
    rw [hfound, hmembers.eq hsettles (hl.trans hl') hg']
  · obtain ⟨found, hfound, hsettles⟩ := himport h₁
    obtain ⟨-, hgi, -⟩ := traceImport_links k x g₁ hg1
    obtain ⟨hl, hg2⟩ := h2.linked hgi
    obtain ⟨hl', hg', -⟩ := namespaceMembers_links m g₂ hg2
    rw [hfound, hsettles.eq (namespaceMembers_settles hg2 m b.imported) (hl.trans hl') hg']

/-! ## Where searches end -/

/-- Everything that a module depends on has no higher rank than the module, and what it imports
names from has a lower one. -/
def Graph.ranks (g : Graph) (r : ModuleId → Nat) : Bool :=
  g.modules.toList.zipIdx.all fun p =>
    (p.1.dependencies.all fun d => d.target.all fun t => r t ≤ r p.2) &&
      p.1.imports.all fun i => (p.1.target? i.2.specifier).all fun t => r t < r p.2

/-- How far a question is from the end: the rank of its module, then how often it can still change
its kind, then the modules that were not gone through. -/
def Call.height (g : Graph) (r : ModuleId → Nat) : Call → Nat × Nat × Nat
  | .exported m _ => (r m, 3, 0)
  | .search active m _ => (r m, 2, (g.unseen active).length)
  | .own m _ => (r m, 1, 0)
  | .imported m _ => (r m, 0, 0)

section

variable {g : Graph} {r : ModuleId → Nat} {m t : ModuleId} {mod : Module}

theorem Graph.rank_le (h : g.ranks r = true) (hm : g.module? m = some mod) {specifier : Bytes}
    (ht : mod.target? specifier = some t) : r t ≤ r m := by
  have hmod := List.all_eq_true.mp h _ (mem_zipIdx hm)
  obtain ⟨d, hd, htarget⟩ := Option.bind_eq_some_iff.mp ht
  have hall := List.all_eq_true.mp (Bool.and_eq_true_iff.mp hmod).1 d (List.mem_of_find?_eq_some hd)
  simpa [htarget] using hall

theorem Graph.rank_lt (h : g.ranks r = true) (hm : g.module? m = some mod) {x : Bytes}
    {b : ImportBinding} (hb : mod.imports.lookup x = some b)
    (ht : mod.target? b.specifier = some t) : r t < r m := by
  have hmod := List.all_eq_true.mp h _ (mem_zipIdx hm)
  obtain ⟨before, after, himports, -⟩ := List.lookup_eq_some_iff.mp hb
  have hall := List.all_eq_true.mp (Bool.and_eq_true_iff.mp hmod).2 (x, b) (by simp [himports])
  simpa [ht] using hall

/-- No search runs in circles where imports go down in rank: within a rank a search changes its
kind, or goes through a module that it has not gone through. -/
theorem Graph.tracingEnds_of_ranks (h : g.ranks r = true) : g.TracingEnds := by
  have hstar : ∀ {active : List ModuleId} {m t : ModuleId} {mod : Module}
      {name name' specifier : Bytes}, g.module? m = some mod → m ∉ active →
      mod.target? specifier = some t →
      Prod.Lex (· < ·) (Prod.Lex (· < ·) (· < ·))
        (Call.height g r (.search (m :: active) t name'))
        (Call.height g r (.search active m name)) := by
    intro active m t mod name name' specifier hm hactive ht
    have hless := unseen_cons_lt (by rw [hm]; rfl) hactive
    rcases Nat.lt_or_eq_of_le (rank_le h hm ht) with hlt | heq
    · exact .left _ _ hlt
    · rw [Call.height, heq]
      exact .right _ (.right _ hless)
  refine Subrelation.wf (r := InvImage (Prod.Lex (· < ·) (Prod.Lex (· < ·) (· < ·)))
    (Call.height g r)) ?_ (InvImage.wf _ (Nat.lt_wfRel.wf.prod_lex
      (Nat.lt_wfRel.wf.prod_lex Nat.lt_wfRel.wf)))
  intro d c hleads
  cases hleads with
  | exported m name | own hm hname he => exact .right _ (.left _ _ (by decide))
  | reexport hm hname hnone hactive he htarget hlocal | star hm hname hnone hactive he hdefault hsource htarget =>
    exact hstar hm hactive htarget
  | passed hm hnone => exact .right _ (.left _ _ (by decide))
  | imported hm hb htarget hname => exact .left _ _ (rank_lt h hm hb htarget)

end

/-- Two modules that export everything of each other and, on two ways, of a third. -/
def diamond : Files :=
  [(utf8 "a.js", utf8 "import * as ns from './b.js'; import { x as y } from './b.js'; f(ns.x, y);"),
    (utf8 "b.js", utf8 "export * from './c.js'; export * from './d.js';"),
    (utf8 "c.js", utf8 "export * from './b.js'; export * from './d.js';"),
    (utf8 "d.js", utf8 "export const x = 1;")]

set_option maxRecDepth 100000 in
/-- The member that is found through the diamond is the export, and what the import binds. -/
theorem members_agree_diamond : ∃ (g : Graph) (v : VarId), g.BuiltFrom diamond [utf8 "a.js"] {} ∧
    g.TracingEnds ∧ ((namespaceMembers 1).run g).1 = [(utf8 "x", v)] ∧
    ((traceExport 1 (utf8 "x")).run ((namespaceMembers 1).run g).2).1 = some v ∧
    ((traceImport 0 (utf8 "y")).run ((namespaceMembers 1).run g).2).1 = some (some v) := by
  have hbuilt := Graph.builtFrom_ofFiles diamond [utf8 "a.js"] {} (by decide +kernel)
  have hends : (Graph.ofFiles diamond [utf8 "a.js"] {}).TracingEnds :=
    tracingEnds_of_ranks (r := fun m => if m = 0 then 1 else 0) (by decide +kernel)
  have hmembers : ((namespaceMembers 1).run (Graph.ofFiles diamond [utf8 "a.js"] {})).1 =
      [(utf8 "x", 0)] := by decide +kernel
  have himport : ((Graph.ofFiles diamond [utf8 "a.js"] {}).module? 0).bind (fun mod =>
      (mod.imports.lookup (utf8 "y")).bind fun b => (mod.target? b.specifier).map fun t =>
        (t, b.imported)) = some (1, utf8 "x") := by decide +kernel
  obtain ⟨mod, hmod, himport⟩ := Option.bind_eq_some_iff.mp himport
  obtain ⟨b, hb, himport⟩ := Option.bind_eq_some_iff.mp himport
  obtain ⟨t, ht, himport⟩ := Option.map_eq_some_iff.mp himport
  obtain ⟨rfl, hname⟩ := Prod.mk.inj himport
  have hstar : (utf8 "x").head? ≠ some (Bytes.code '*') := by decide
  obtain ⟨hexport, -, himport⟩ := members_agree hbuilt .refl 1 hstar
  refine ⟨_, 0, hbuilt, hends, hmembers, ?_, ?_⟩
  · rw [hexport _ .refl, hmembers]
    rfl
  · rw [(himport hends 0 mod (utf8 "y") b hmod hb ht hname).1 _ .refl, hmembers]
    rfl

end Winnow
