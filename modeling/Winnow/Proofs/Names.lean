import Winnow.Proofs.Claiming
import Winnow.Proofs.LastingBranches
import Winnow.Proofs.Resolving

/-!
# Names at the top of the output

Whoever stands at the top of the output claims a name: every included binding of a module, default
export and namespace object, and every included export of an outside source (`claimants_links`).
No variable in a nested scope is among them, so what one of them is given it keeps, and each
variable that is renamed is counted once.

The main result is `names_apart`.
-/

namespace Winnow

open Winnow.Graph Conduct Variable List

variable {g : Graph} {v : VarId} {w : Variable}

/-! ## The top level -/

inductive Graph.TopLevel (g : Graph) (v : VarId) : Prop
  | binding {m : ModuleId} {mod : Module} : g.module? m = some mod →
    g.symbols.Holds mod.program.scope v → g.TopLevel v
  | defaultExport {m : ModuleId} {mod : Module} : g.module? m = some mod →
    mod.defaultVar = some v → g.TopLevel v
  | namespaceObject {m : ModuleId} {mod : Module} : g.module? m = some mod →
    mod.namespaceVar = some v → g.TopLevel v
  | external {w : Variable} {source imported : Bytes} : g.var? v = some w →
    w.form = .external source imported → g.TopLevel v

def Graph.IncludedTopLevel (g : Graph) (v : VarId) : Prop :=
  g.TopLevel v ∧ g.isVarIncluded v = true

namespace Naming

variable {g : Graph}

theorem isNameable_of_isBinding (h : w.IsBinding) : isNameable w = true := by
  obtain ⟨kind, ds, init, hform, hkind⟩ := h
  rw [isNameable, hform]
  exact decide_eq_true hkind

/-- The bindings of a module's scope may all be renamed, so none of them is left out. -/
theorem mem_topLevel (hg : g.Arranged) {m : ModuleId} :
    v ∈ topLevel g m ↔ ∃ mod, g.module? m = some mod ∧
      (g.symbols.Holds mod.program.scope v ∨ mod.defaultVar = some v ∨
        mod.namespaceVar = some v) := by
  unfold topLevel
  cases hmod : g.module? m with
  | none => simp
  | some mod =>
    have hown : ∀ u, u ∈ ((((g.symbols.scope? mod.program.scope).map Scope.names).getD []).map
        Prod.snd).filter (fun v => ((g.var? v).map isNameable).getD false) ↔
          g.symbols.Holds mod.program.scope u := by
      intro u
      rw [mem_filter]
      refine ⟨fun h => h.1, fun hu => ⟨hu, ?_⟩⟩
      obtain ⟨w, hw, hbinding⟩ := hg.symbols.bindings (hg.programs hmod).1 hu
      change g.var? u = some w at hw
      rw [hw]
      exact isNameable_of_isBinding hbinding
    simp only [Option.some.injEq, exists_eq_left', mem_append,
      Option.mem_toList, ← or_assoc]
    refine or_congr_left ?_
    generalize ((((g.symbols.scope? mod.program.scope).map Scope.names).getD []).map
      Prod.snd).filter (fun v => ((g.var? v).map isNameable).getD false) = own at hown
    rw [← hown]
    cases mod.defaultVar with
    | none => simp
    | some d =>
      by_cases hd : d ∈ own
      · have hmem : some d = some v → v ∈ own := fun heq => Option.some.inj heq ▸ hd
        simpa [hd] using hmem
      · simp [hd, eq_comm]

theorem mem_externalVariables :
    v ∈ g.externalVariables ↔ ∃ k, k.1 ∈ g.externalSources ∧ (k, v) ∈ g.externals := by
  simp only [externalVariables, mem_flatMap, mem_map, mem_mergeSort,
    mem_filter, decide_eq_true_eq]
  constructor
  · rintro ⟨source, hsource, e, ⟨he, rfl⟩, rfl⟩
    exact ⟨e.1, hsource, he⟩
  · rintro ⟨k, hk, hv⟩
    exact ⟨k.1, hk, (k, v), ⟨hv, rfl⟩, rfl⟩

theorem topLevel_of_onTop (hg : g.Arranged) (h : g.OnTop v) : g.TopLevel v ∨ g.IsSpace v := by
  rcases h with ⟨m, mod, hmod, ⟨name, hname⟩ | hdefault⟩ | ⟨k, hk⟩ | hspace
  · exact .inl (.binding hmod (Symbols.holds_of_lookupIn? hname))
  · exact .inl (.defaultExport hmod hdefault)
  · obtain ⟨before, after, hlist, -⟩ := lookup_eq_some_iff.mp hk
    obtain ⟨w, hw, hform⟩ := hg.externals (k := k) (v := v) (by simp [hlist])
    exact .inl (.external hw hform)
  · exact .inr hspace

theorem isVarIncluded_iff :
    g.isVarIncluded v = true ↔ ∃ w, g.var? v = some w ∧ w.included = true := by
  rw [Graph.isVarIncluded]
  cases g.var? v <;> simp

/-! ## Who claims a name -/

/-- The variables that claim a name are different ones from the top of the output, and all that are
included. -/
structure Claimants (all : List VarId) (g : Graph) : Prop where
  nodup : all.Nodup
  standing : ∀ v ∈ all, (g.TopLevel v ∨ g.IsSpace v) ∧ g.isVarIncluded v = true
  complete : ∀ v, g.IncludedTopLevel v → v ∈ all

/-- Searching for the exports of the entries may make variables, but includes none of them. -/
theorem isVarIncluded_old {g' : Graph} (h : Linked g g') (hv : g'.isVarIncluded v = true) :
    ∃ w, g.var? v = some w ∧ g'.var? v = some w := by
  obtain ⟨w, hw, hincluded⟩ := isVarIncluded_iff.mp hv
  cases hold : g.var? v with
  | none =>
    rw [(h.new hw hold).rest] at hincluded
    cases hincluded
  | some w' => exact ⟨w', rfl, h.vars hold⟩

theorem nodup_eraseDups : ∀ all : List VarId, all.eraseDups.Nodup
  | [] => by simp
  | v :: all => by
    rw [eraseDups_cons, nodup_cons]
    exact ⟨by simp, nodup_eraseDups _⟩
termination_by all => all.length
decreasing_by exact Nat.lt_succ_of_le (List.length_filter_le _ _)

theorem claimants_links (g : Graph)
    (horder : ∀ {m mod}, g.module? m = some mod → m ∈ g.order) :
    LinksFrom g claimants Claimants := by
  refine Steps.get_bind fun hg => Steps.get_bind fun _ => ?_
  refine Steps.bind' (Steps.flatMapM' (c := linking)
    (R := fun (p : Bytes × VarId) g' => g'.OnTop p.2) (fun _ _ _ hp hl => hl.onTop hp)
    (fun g' m => entryExports_links m g') _ _) fun exports g' hl hexports => ?_
  refine Steps.get_bind fun hg' => Steps.pure' fun _ => ⟨?_, fun v hv => ?_, fun v hv => ?_⟩
  · exact (nodup_eraseDups _).filter _
  · obtain ⟨hmem, hincluded⟩ := mem_filter.mp hv
    refine ⟨?_, hincluded⟩
    rw [mem_eraseDups, mem_append, mem_append] at hmem
    rcases hmem with (hmem | hmem) | hmem
    · obtain ⟨k, -, hk⟩ := mem_externalVariables.mp hmem
      obtain ⟨w, hw, hform⟩ := hg.arranged.externals hk
      exact .inl (.external (hl.vars hw) hform)
    · obtain ⟨p, hp, rfl⟩ := mem_map.mp hmem
      exact topLevel_of_onTop hg'.arranged (hexports p hp)
    · obtain ⟨m, -, hm⟩ := mem_flatMap.mp hmem
      obtain ⟨mod, hmod, hv | hv | hv⟩ := (mem_topLevel hg'.arranged).mp hm
      · exact .inl (.binding hmod hv)
      · exact .inl (.defaultExport hmod hv)
      · exact .inl (.namespaceObject hmod hv)
  · obtain ⟨hv, hincluded⟩ := hv
    rw [mem_filter, mem_eraseDups, mem_append, mem_append]
    refine ⟨?_, hincluded⟩
    have htop : ∀ {m mod}, g'.module? m = some mod → (g'.symbols.Holds mod.program.scope v ∨
        mod.defaultVar = some v ∨ mod.namespaceVar = some v) →
        v ∈ g'.order.flatMap (topLevel g') := by
      intro m mod hmod hv
      obtain ⟨mod0, hmod0, -⟩ := hl.module?_old hmod
      refine mem_flatMap.mpr ⟨m, ?_, (mem_topLevel hg'.arranged).mpr ⟨mod, hmod, hv⟩⟩
      rw [hl.rest]
      exact horder hmod0
    cases hv with
    | binding hmod hv => exact .inr (htop hmod (.inl hv))
    | defaultExport hmod hv => exact .inr (htop hmod (.inr (.inl hv)))
    | namespaceObject hmod hv => exact .inr (htop hmod (.inr (.inr hv)))
    | external hw hform =>
      obtain ⟨w, hold, hw'⟩ := isVarIncluded_old hl hincluded
      cases hw.symm.trans hw'
      have hk := hg.arranged.registered hold hform
      exact .inl (.inl (mem_externalVariables.mpr ⟨_, hg.arranged.sources hk, hk⟩))

/-- No variable that claims a name stands in a nested scope and may be renamed there. -/
theorem not_nested (hg : Linkable g) (hv : g.TopLevel v ∨ g.IsSpace v) {m : ModuleId}
    (h : NestedIn g m v) : ¬ Nameable g v := by
  obtain ⟨mod, s, hmod, hs, hholds⟩ := h
  have hmay : g.symbols.MayBeModule mod.program.scope := fun kind hkind =>
    Option.some.inj (hkind.symm.trans (hg.arranged.programs hmod).1)
  have hscope : ∀ {k modk}, g.module? k = some modk → modk.program.scope ≠ s := by
    rintro k modk hk rfl
    exact hg.arranged.symbols.outermost (hg.arranged.programs hk).1 hs hmay
  have hspace : ¬ (g.IsSpace v ∧ Nameable g v) := by
    rintro ⟨⟨w, hw, hspace⟩, w', hw', hnameable⟩
    cases hw.symm.trans hw'
    obtain ⟨merged, hform⟩ := isNamespace_iff.mp hspace
    rw [isNameable, hform] at hnameable
    cases hnameable
  intro hnameable
  rcases hv with hv | hv
  · cases hv with
    | binding hmod' hv => exact hscope hmod' (hg.arranged.symbols.once hv hholds)
    | defaultExport hmod' hv =>
      exact hscope hmod' ((hg.arranged.defaultVar hmod' hv).2 s hholds).symm
    | namespaceObject hmod' hv => exact hspace ⟨hg.namespaceVar hmod' hv, hnameable⟩
    | external hw' hform =>
      obtain ⟨w, hw, hnameable⟩ := hnameable
      cases hw.symm.trans hw'
      rw [isNameable, hform] at hnameable
      cases hnameable
  · exact hspace ⟨hv, hnameable⟩

/-! ## The whole bundle -/

/-- What giving out names leads to. The variables in `claimed` got theirs in this order, and `count`
is what is reported. -/
structure Deconflicted (claimed : List VarId) (count : Nat) (g : Graph) : Prop where
  /-- The names at the top are pairwise different. -/
  apart : ∀ u v, g.IncludedTopLevel u → g.IncludedTopLevel v →
    outputName g u = outputName g v → u = v
  notReserved : ∀ v, g.IncludedTopLevel v → outputName g v ∉ reserved
  notGlobal : ∀ v, g.IncludedTopLevel v → ∀ u w, g.var? u = some w → w.isGlobal = true →
    outputName g v ≠ w.name
  claimants : Claimants claimed g
  /-- A name was the first one that was free when it was claimed. -/
  free : ∀ before v after, claimed = before ++ v :: after → ∃ w, g.var? v = some w ∧
    Free (before.map (outputName g) ++ (globalNames g ++ reserved)) w.name (outputName g v)
  count_eq : count = (renamedVars g).card

theorem mem_globalNames (hg : g.symbols.Scoped) {u : VarId} (hw : g.var? u = some w)
    (hglobal : w.isGlobal = true) : w.name ∈ globalNames g := by
  have hmem := hg.globals hw hglobal
  rw [Symbols.namesOf] at hmem
  unfold globalNames
  cases hscope : g.symbols.scope? Symbols.globalScope with
  | none =>
    rw [hscope] at hmem
    cases hmem
  | some scope =>
    rw [hscope] at hmem
    refine mem_map.mpr ⟨(w.name, u), mem_filter.mpr ⟨hmem, ?_⟩, rfl⟩
    rw [hw]
    exact hglobal

/-! ### Renaming moves nothing -/

section

variable {g' : Graph}

section

variable (h : g.Renaming g')

include h

theorem globalNames_congr : globalNames g' = globalNames g := by
  have hglobal : ∀ v, (g'.var? v).map isGlobal = (g.var? v).map isGlobal := by
    intro v
    have hsame := congrArg (Option.map isGlobal) (h.vars v)
    rwa [Option.map_map, Option.map_map] at hsame
  simp [globalNames, h.scope?, hglobal]

theorem isVarIncluded_congr (v : VarId) : g'.isVarIncluded v = g.isVarIncluded v := by
  have hsame := congrArg (Option.map included) (h.vars v)
  rw [Option.map_map, Option.map_map] at hsame
  exact congrArg (Option.getD · false) hsame

theorem topLevel_congr (hv : g'.TopLevel v) : g.TopLevel v := by
  have hholds : g'.symbols.Holds = g.symbols.Holds := by
    funext s u
    simp [Symbols.Holds, h.namesOf]
  cases hv with
  | binding hmod hv => exact .binding ((h.module? _).symm.trans hmod) (hholds ▸ hv)
  | defaultExport hmod hv => exact .defaultExport ((h.module? _).symm.trans hmod) hv
  | namespaceObject hmod hv => exact .namespaceObject ((h.module? _).symm.trans hmod) hv
  | external hw hform =>
    obtain ⟨w, hw, hsame⟩ := h.var_cases hw
    rw [hsame] at hform
    exact .external hw hform

theorem isSpace_congr (hv : g'.IsSpace v) : g.IsSpace v := by
  obtain ⟨w', hw', hspace⟩ := hv
  obtain ⟨w, hw, hsame⟩ := h.var_cases hw'
  rw [hsame] at hspace
  exact ⟨w, hw, hspace⟩

theorem includedTopLevel_congr (hv : g'.IncludedTopLevel v) : g.IncludedTopLevel v :=
  ⟨topLevel_congr h hv.1, (isVarIncluded_congr h v).symm.trans hv.2⟩

end

theorem Claimants.renaming {all : List VarId} (hall : Claimants all g) (h : g.Renaming g') :
    Claimants all g' where
  nodup := hall.nodup
  standing := fun v hv => by
    obtain ⟨hstands, hincluded⟩ := hall.standing v hv
    exact ⟨hstands.imp (topLevel_congr h.symm) (isSpace_congr h.symm),
      (isVarIncluded_congr h v).trans hincluded⟩
  complete := fun v hv => hall.complete v (includedTopLevel_congr h hv)

end

/-! ### Giving out names -/

/-- The claims at the start, when the globals and the reserved names are taken. -/
def opening (g : Graph) : Claims := { graph := g, used := globalNames g ++ reserved }

/-- The names that are given out once it is known who claims one. -/
def given (all : List VarId) (g : Graph) : Claims :=
  g.order.foldl renameNested (all.foldl Claims.claim (opening g))

theorem assign_run (g : Graph) : ∃ text attrs, assign.run g =
    ((given (claimants.run g).1 (claimants.run g).2).renamed,
      (given (claimants.run g).1 (claimants.run g).2).graph.note text attrs) :=
  ⟨_, _, rfl⟩

section

variable {all : List VarId}

section

variable (hg : Linkable g) (hnodup : g.order.Nodup) (hall : Claimants all g)

include hg hnodup hall

theorem given_renames :
    Renames (fun v => v ∈ all ∨ ∃ m ∈ g.order, NestedIn g m v ∧ Nameable g v) (opening g)
      (given all g) := by
  have htop := claims_renames hall.nodup (opening g)
  refine htop.trans (renameModules_renames hg.arranged htop.graph hnodup) ?_
  rintro v hv ⟨m, -, hnested, hnameable⟩
  exact not_nested hg (hall.standing v hv).1 hnested hnameable

theorem outputName_given (hv : v ∈ all) : outputName (given all g).graph v =
      outputName (all.foldl Claims.claim (opening g)).graph v := by
  have htop := claims_renames hall.nodup (opening g)
  rw [outputName, given, (renameModules_renames hg.arranged htop.graph hnodup).kept]
  · rfl
  · rintro ⟨m, -, hnested, hnameable⟩
    exact not_nested hg (hall.standing v hv).1 hnested hnameable

theorem given_count : (given all g).renamed = (renamedVars (given all g).graph).card := by
  refine (given_renames hg hnodup hall).counted (fun _ hw => hg.arranged.unnamed hw) ?_
  have hnone : renamedVars g = ∅ := by
    refine Finset.eq_empty_of_forall_notMem fun v hv => ?_
    obtain ⟨w, hw, hne⟩ := mem_renamedVars.mp hv
    exact hne (by rw [renderName, hg.arranged.unnamed hw]; rfl)
  show 0 = (renamedVars g).card
  rw [hnone]
  rfl

theorem given_free
    {before after : List VarId} (hsplit : all = before ++ v :: after) (hw : g.var? v = some w) :
    Free (before.map (outputName (given all g).graph) ++ (globalNames g ++ reserved)) w.name
      (outputName (given all g).graph v) := by
  have hexist : ∀ u ∈ all, (g.var? u).isSome := by
    intro u hu
    obtain ⟨w, hw, -⟩ := isVarIncluded_iff.mp (hall.standing u hu).2
    rw [hw]
    rfl
  have hfree := claims_free hall.nodup (c := opening g) hexist hsplit hw
  have hnames : before.map (outputName (given all g).graph) =
      before.map (outputName (all.foldl Claims.claim (opening g)).graph) :=
    map_congr_left fun u hu => outputName_given hg hnodup hall (by simp [hsplit, hu])
  rw [hnames, outputName_given hg hnodup hall (by simp [hsplit])]
  exact hfree

theorem given_apart {u : VarId} (hu : u ∈ all) (hv : v ∈ all)
    (heq : outputName (given all g).graph u = outputName (given all g).graph v) : u = v := by
  -- A variable does not get a name that was given out before.
  have hnew : ∀ {before after a b}, all = before ++ a :: after → b ∈ before →
      outputName (given all g).graph b ≠ outputName (given all g).graph a := by
    intro before after a b hsplit hb hsame
    obtain ⟨w, hw, -⟩ := isVarIncluded_iff.mp (hall.standing a (by simp [hsplit])).2
    refine (given_free hg hnodup hall hsplit hw).notMem (mem_append.mpr (.inl ?_))
    exact hsame ▸ mem_map_of_mem hb
  obtain ⟨before, after, hsplit⟩ := append_of_mem hv
  rw [hsplit, mem_append, mem_cons] at hu
  rcases hu with hu | rfl | hu
  · exact absurd heq (hnew hsplit hu)
  · rfl
  · obtain ⟨middle, after, rfl⟩ := append_of_mem hu
    have hsplit' : all = (before ++ v :: middle) ++ u :: after := by
      rw [hsplit, append_assoc, cons_append]
    exact absurd heq.symm (hnew hsplit' (by simp))

theorem given_deconflicted (text : String) (attrs : List Log.Attr) :
    Deconflicted all (given all g).renamed ((given all g).graph.note text attrs) := by
  have hrenames : g.Renaming ((given all g).graph.note text attrs) :=
    (given_renames hg hnodup hall).graph.trans (.note _ text attrs)
  have hclaims : ∀ {v}, ((given all g).graph.note text attrs).IncludedTopLevel v → v ∈ all :=
    fun hv => hall.complete _ (includedTopLevel_congr hrenames hv)
  have hfree : ∀ {before v after}, all = before ++ v :: after → ∃ w,
      (given all g).graph.var? v = some w ∧
        Free (before.map (outputName (given all g).graph) ++ (globalNames g ++ reserved)) w.name
          (outputName (given all g).graph v) := by
    intro before v after hsplit
    obtain ⟨w, hw, -⟩ := isVarIncluded_iff.mp (hall.standing v (by simp [hsplit])).2
    obtain ⟨w', hw', hsame⟩ := hrenames.symm.var_cases hw
    refine ⟨w', hw', ?_⟩
    rw [show w'.name = w.name by rw [hsame]]
    exact given_free hg hnodup hall hsplit hw
  have htaken : ∀ {v}, ((given all g).graph.note text attrs).IncludedTopLevel v →
      outputName (given all g).graph v ∉ globalNames g ++ reserved := by
    intro v hv hmem
    obtain ⟨before, after, hsplit⟩ := append_of_mem (hclaims hv)
    obtain ⟨w, -, hfree⟩ := hfree hsplit
    exact hfree.notMem (mem_append.mpr (.inr hmem))
  refine ⟨fun u v hu hv => given_apart hg hnodup hall (hclaims hu) (hclaims hv),
    fun v hv hmem => htaken hv (mem_append.mpr (.inr hmem)), fun v hv u w hw hglobal heq => ?_,
    hall.renaming hrenames, fun before v after hsplit => ?_, given_count hg hnodup hall⟩
  · obtain ⟨w0, hw0, hsame⟩ := hrenames.var_cases hw
    refine htaken hv (mem_append.mpr (.inl ?_))
    rw [show outputName (given all g).graph v = w.name from heq,
      show w.name = w0.name by rw [hsame]]
    refine mem_globalNames hg.arranged.symbols hw0 ?_
    rw [hsame] at hglobal
    exact hglobal
  · rw [globalNames_congr hrenames]
    exact hfree hsplit

end

end

/-! ### Who gets a name -/

theorem mem_numbered (base : Bytes) (k : Nat) : Bytes.code '$' ∈ numbered base k :=
  mem_append_right base mem_cons_self

theorem Free.own {taken : List Bytes} {base name : Bytes} (h : Free taken base name)
    (hname : Bytes.code '$' ∉ name) : name = base := by
  rcases h.least with heq | ⟨-, k, -, rfl, -⟩
  · exact heq
  · exact absurd (mem_numbered base k) hname

/-- Such a name is given to somebody exactly if it is not taken from the start and somebody who
claims a name is called so. -/
theorem Deconflicted.given_iff {claimed : List VarId} {count : Nat}
    (h : Deconflicted claimed count g) {name : Bytes} (hname : Bytes.code '$' ∉ name) :
    (∃ v ∈ claimed, outputName g v = name) ↔
      name ∉ globalNames g ++ reserved ∧
        ∃ v ∈ claimed, ∃ w, g.var? v = some w ∧ w.name = name := by
  constructor
  · rintro ⟨v, hv, rfl⟩
    obtain ⟨before, after, hsplit⟩ := append_of_mem hv
    obtain ⟨w, hw, hfree⟩ := h.free before v after hsplit
    refine ⟨fun hmem => hfree.notMem (mem_append_right _ hmem), v, hv, w, hw, ?_⟩
    exact (hfree.own hname).symm
  · rintro ⟨hfresh, v, hv, w, hw, rfl⟩
    obtain ⟨before, after, hsplit⟩ := append_of_mem hv
    obtain ⟨w', hw', hfree⟩ := h.free before v after hsplit
    cases hw.symm.trans hw'
    rcases hfree.least with heq | ⟨hbase, -⟩
    · exact ⟨v, hv, heq⟩
    · -- Whoever was earlier and took the name has it still.
      rcases mem_append.mp hbase with hearlier | htaken
      · obtain ⟨u, hu, heq⟩ := mem_map.mp hearlier
        exact ⟨u, by simp [hsplit, hu], heq⟩
      · exact absurd htaken hfresh

end Naming

theorem Graph.BuiltFrom.ordered {files : Files} {entries : List Bytes} {o : BuildOptions}
    (h : g.BuiltFrom files entries o) :
    g.order.Nodup ∧ ∀ {m mod}, g.module? m = some mod → m ∈ g.order := by
  obtain ⟨loaded, hloaded, hsorted⟩ := h.sorted
  obtain ⟨horder, hmem⟩ := hloaded.executionOrder
  rw [hsorted.order]
  refine ⟨horder.nodup, fun {m mod} hmod => ?_⟩
  obtain ⟨mod0, hmod0, -⟩ := hsorted.text.symm.module? hmod
  obtain ⟨e, he, hleads⟩ := hloaded.needed m mod0 hmod0
  exact (hmem m).mpr ⟨e, he, hleads.lift (fun m => m) fun _ _ => hloaded.dependsOn_iff.mpr⟩

/-- What stands in front of giving out names, whenever marking has come to the end of a pass. -/
theorem Naming.claimants_run {files : Files} {entries : List Bytes} {o : BuildOptions} {g0 : Graph}
    {depth : Nat} (hbuilt : g0.BuiltFrom files entries o)
    (hreached : Marking.Reached depth g0 g) :
    Linkable (claimants.run g).2 ∧ (claimants.run g).2.order.Nodup ∧
      Claimants (claimants.run g).1 (claimants.run g).2 := by
  obtain ⟨⟨hsound, -⟩, hevolves, -⟩ := hreached.marked hbuilt.built
  obtain ⟨hnodup, hmem⟩ := hbuilt.ordered
  have horder : ∀ {m mod}, g.module? m = some mod → m ∈ g.order := by
    intro m mod hmod
    rw [hevolves.order]
    obtain ⟨mod0, hmod0, -⟩ := hevolves.module_cases hmod
    exact hmem hmod0
  obtain ⟨hlinked, hlinkable, hall⟩ := claimants_links g horder hsound.linkable
  have hsame : (claimants.run g).2.order = g0.order := by
    rw [hlinked.rest]
    exact hevolves.order
  exact ⟨hlinkable, hsame ▸ hnodup, hall⟩

/-- **Names at the top are unique.** Whenever marking has come to the end of a pass, and when it
returns, giving out names keeps all included variables at the top apart from each other, from
globals and from reserved names. Each has the first name that was free when it was its turn, and
the number reported is that of the variables whose name changed. -/
theorem names_apart {files : Files} {entries : List Bytes} {o : BuildOptions} {g₀ g : Graph}
    {depth : Nat} (hbuilt : g₀.BuiltFrom files entries o)
    (hreached : Marking.Reached depth g₀ g) :
    Naming.Deconflicted (Naming.claimants.run g).1 (Naming.assign.run g).1
      (Naming.assign.run g).2 := by
  obtain ⟨hlinkable, hnodup, hall⟩ := Naming.claimants_run hbuilt hreached
  obtain ⟨text, attrs, hrun⟩ := Naming.assign_run g
  rw [hrun]
  exact Naming.given_deconflicted hlinkable hnodup hall text attrs

/-- Three variables called `x`, one of them outside, and a parameter that would hide one of them
under its new name. -/
def crowded : Files :=
  [(utf8 "m", utf8 "import './n'; import {x as y} from 'p'; var x = g(y, x$2 => x());"),
    (utf8 "n", utf8 "var x = g();")]

set_option maxRecDepth 100000 in
/-- Two of the three get a number, and the parameter gets another name in turn. -/
theorem names_apart_crowded : ∃ g₀ g : Graph, g₀.BuiltFrom crowded [utf8 "m"] {} ∧
    Marking.Reached 20 g₀ g ∧
    (Naming.claimants.run g).1.map (Naming.outputName (Naming.assign.run g).2) =
      [utf8 "x", utf8 "x$1", utf8 "x$2"] ∧
    (Naming.assign.run g).1 = 3 ∧
    Naming.Deconflicted (Naming.claimants.run g).1 (Naming.assign.run g).1
      (Naming.assign.run g).2 := by
  have hbuilt := Graph.builtFrom_ofFiles crowded [utf8 "m"] {} (by decide +kernel)
  have hreached : Marking.Reached 20 (.ofFiles crowded [utf8 "m"] {}) _ :=
    .afterPasses 1 (by decide +kernel) (by decide +kernel)
  refine ⟨_, _, hbuilt, hreached, ?_⟩
  rw [← and_assoc]
  exact ⟨by decide +kernel, names_apart hbuilt hreached⟩

/-- **Names of the output's own.** Nothing at the top of the output is called `undefined` or like
the function that merges namespaces. The globals `Object` and `Symbol`, which namespace objects are
written with, are not kept free: one of them is the name of something at the top exactly if no
module mentions it as a global and something that is included there is called so. -/
theorem own_names_bound_iff {files : Files} {entries : List Bytes} {o : BuildOptions}
    {g₀ g : Graph} {depth : Nat} (hbuilt : g₀.BuiltFrom files entries o)
    (hreached : Marking.Reached depth g₀ g) :
    let claimed := (Naming.claimants.run g).1
    let g' := (Naming.assign.run g).2
    (∀ v, g'.IncludedTopLevel v → v ∈ claimed) ∧
    (∀ v ∈ claimed, Naming.outputName g' v ∉ [utf8 "undefined", Naming.mergeName]) ∧
    ∀ name ∈ [utf8 "Object", utf8 "Symbol"], (∃ v ∈ claimed, Naming.outputName g' v = name) ↔
      name ∉ Naming.globalNames g' ∧ ∃ v ∈ claimed, ∃ w, g'.var? v = some w ∧ w.name = name := by
  intro claimed g'
  have h : Naming.Deconflicted claimed (Naming.assign.run g).1 g' := by
    obtain ⟨hlinkable, hnodup, hall⟩ := Naming.claimants_run hbuilt hreached
    obtain ⟨text, attrs, hrun⟩ := Naming.assign_run g
    simp only [claimed, g', hrun]
    exact Naming.given_deconflicted hlinkable hnodup hall text attrs
  refine ⟨h.claimants.complete, fun v hv hmem => ?_, fun name hname => ?_⟩
  · have hreserved : ∀ name ∈ [utf8 "undefined", Naming.mergeName],
        Bytes.code '$' ∉ name ∧ name ∈ Naming.reserved := by decide +kernel
    obtain ⟨hplain, hin⟩ := hreserved _ hmem
    exact ((h.given_iff hplain).mp ⟨v, hv, rfl⟩).1 (List.mem_append_right _ hin)
  · have hfree : ∀ name ∈ [utf8 "Object", utf8 "Symbol"],
        Bytes.code '$' ∉ name ∧ name ∉ Naming.reserved := by decide +kernel
    obtain ⟨hplain, hout⟩ := hfree name hname
    rw [h.given_iff hplain, List.mem_append, not_or, and_iff_left hout]

/-- A module that exports a variable called like the global that its namespace is frozen with. -/
def hijack : Files :=
  [(utf8 "a.js", utf8 "import * as ns from './b.js'; g(ns);"),
    (utf8 "b.js", utf8 "export const Object = h();")]

set_option maxRecDepth 100000 in
theorem own_names_bound_hijack : ∃ g₀ g : Graph, g₀.BuiltFrom hijack [utf8 "a.js"] {} ∧
    Marking.Reached 20 g₀ g ∧
    ((Bundle.ofGraph.run (Naming.assign.run g).2).1.render (Naming.assign.run g).2 {}).toOption =
      some (utf8 "const Object = h();\nconst ns = /*#__PURE__*/Object.freeze(\x7b\n" ++
        utf8 "\t__proto__: null,\n\tObject: Object\n\x7d);\n\ng(ns);\n") ∧
    ((∃ v ∈ (Naming.claimants.run g).1,
      Naming.outputName (Naming.assign.run g).2 v = utf8 "Object") ↔
      utf8 "Object" ∉ Naming.globalNames (Naming.assign.run g).2 ∧
        ∃ v ∈ (Naming.claimants.run g).1, ∃ w, (Naming.assign.run g).2.var? v = some w ∧
          w.name = utf8 "Object") := by
  have hbuilt := Graph.builtFrom_ofFiles hijack [utf8 "a.js"] {} (by decide +kernel)
  have hreached : Marking.Reached 20 (.ofFiles hijack [utf8 "a.js"] {}) _ :=
    .afterPasses 1 (by decide +kernel) (by decide +kernel)
  refine ⟨_, _, hbuilt, hreached, by decide +kernel, ?_⟩
  exact (own_names_bound_iff hbuilt hreached).2.2 _ List.mem_cons_self

end Winnow
