import Winnow.Graph.Trace
import Winnow.Proofs.Scoping

/-!
# Where the variables of a graph stand

While a graph is built, linked and analysed, no variable moves: the bindings of a module stand in
its scope, the variable of its default export in no other, and every variable for an export of an
outside source is entered under that source. None of them has a name for the output yet. This is
what it means for a graph to be `Graph.Arranged`.
-/

namespace Winnow

open Winnow.Graph Symbols

/-! ## Variables -/

/-- A variable that is still what it was. Only a namespace may be known under another name. -/
structure Variable.Resembles (w w' : Variable) : Prop where
  outputName : w'.outputName = w.outputName
  name : w'.name = w.name ∨ w.isNamespace = true
  form : w'.form = w.form ∨ w.isReceiver = true ∧ w'.isReceiver = true ∨
    w.isNamespace = true ∧ w'.isNamespace = true

namespace Variable

theorem isReceiver_iff {w : Variable} : w.isReceiver = true ↔ ∃ n, w.form = .receiver n := by
  unfold isReceiver
  split <;> simp_all

theorem isNamespace_iff {w : Variable} :
    w.isNamespace = true ↔ ∃ merged, w.form = .moduleNamespace merged := by
  unfold isNamespace
  split <;> simp_all

theorem isGlobal_iff {w : Variable} : w.isGlobal = true ↔ w.form = .global := by
  unfold isGlobal
  split <;> simp_all

namespace Resembles

variable {w w' : Variable}

theorem of_form (houtput : w'.outputName = w.outputName) (hname : w'.name = w.name)
    (hform : w'.form = w.form) : w.Resembles w' := ⟨houtput, .inl hname, .inl hform⟩

theorem refl (w : Variable) : w.Resembles w := of_form rfl rfl rfl

/-- What is neither a receiver nor a namespace keeps its form, and nothing else takes it. -/
theorem form_iff (h : w.Resembles w') (form : VariableForm) (hreceiver : ∀ n, form ≠ .receiver n)
    (hspace : ∀ merged, form ≠ .moduleNamespace merged) : w'.form = form ↔ w.form = form := by
  rcases h.form with hsame | ⟨hw, hw'⟩ | ⟨hw, hw'⟩
  · rw [hsame]
  · obtain ⟨n, hw⟩ := isReceiver_iff.mp hw
    obtain ⟨n', hw'⟩ := isReceiver_iff.mp hw'
    rw [hw, hw']
    exact ⟨fun h => absurd h.symm (hreceiver n'), fun h => absurd h.symm (hreceiver n)⟩
  · obtain ⟨n, hw⟩ := isNamespace_iff.mp hw
    obtain ⟨n', hw'⟩ := isNamespace_iff.mp hw'
    rw [hw, hw']
    exact ⟨fun h => absurd h.symm (hspace n'), fun h => absurd h.symm (hspace n)⟩

theorem isBinding (h : w.Resembles w') (hw : w.IsBinding) : w'.IsBinding := by
  obtain ⟨kind, ds, init, hform, hkind⟩ := hw
  have hform' := (h.form_iff (.declared kind ds init) (by simp) (by simp)).mpr hform
  exact ⟨kind, ds, init, hform', hkind⟩

theorem isNamespace (h : w.Resembles w') (hw : w.isNamespace = true) : w'.isNamespace = true := by
  rcases h.form with hsame | ⟨hreceiver, -⟩ | ⟨-, hspace⟩
  · rwa [Variable.isNamespace, hsame]
  · obtain ⟨merged, hform⟩ := isNamespace_iff.mp hw
    obtain ⟨n, hform'⟩ := isReceiver_iff.mp hreceiver
    rw [hform] at hform'
    cases hform'
  · exact hspace

theorem isGlobal (h : w.Resembles w') (hw' : w'.isGlobal = true) :
    w.isGlobal = true ∧ w'.name = w.name := by
  have hform : w.form = .global :=
    (h.form_iff .global (by simp) (by simp)).mp (isGlobal_iff.mp hw')
  refine ⟨isGlobal_iff.mpr hform, h.name.resolve_right fun hspace => ?_⟩
  rw [Variable.isNamespace, hform] at hspace
  cases hspace

end Resembles

end Variable

/-! ## Graphs -/

/-- Every variable of a graph stands in its place, and none has a name for the output yet. -/
structure Graph.Arranged (g : Graph) : Prop where
  symbols : g.symbols.Scoped
  unnamed : ∀ {v w}, g.var? v = some w → w.outputName = none
  programs : ∀ {m mod}, g.module? m = some mod →
    g.symbols.kind? mod.program.scope = some .module ∧
      g.symbols.owner? mod.program.scope = some m
  defaultVar : ∀ {m mod v}, g.module? m = some mod → mod.defaultVar = some v →
    g.symbols.OnlyIn v mod.program.scope
  externals : ∀ {k v}, (k, v) ∈ g.externals → ∃ w, g.var? v = some w ∧ w.form = .external k.1 k.2
  registered : ∀ {v w source imported}, g.var? v = some w → w.form = .external source imported →
    ((source, imported), v) ∈ g.externals
  sources : ∀ {k v}, (k, v) ∈ g.externals → k.1 ∈ g.externalSources

namespace Graph.Arranged

variable {g g' : Graph}

theorem external_lt (h : g.Arranged) {k : Bytes × Bytes} {v : VarId}
    (hk : g.externals.lookup k = some v) : v < g.symbols.vars.size := by
  obtain ⟨before, after, hlist, -⟩ := List.lookup_eq_some_iff.mp hk
  obtain ⟨w, hw, -⟩ := h.externals (k := k) (v := v) (by simp [hlist])
  exact lt_of_var? hw

/-- Nothing moves as long as scopes stay, variables stay what they are and modules are those that
were read. New variables are namespaces. -/
theorem mono (h : g.Arranged) (hscopes : g'.symbols.scopes = g.symbols.scopes)
    (hvars : ∀ {v w}, g.var? v = some w → ∃ w', g'.var? v = some w' ∧ w.Resembles w')
    (hnew : ∀ {v w'}, g'.var? v = some w' → g.var? v = none →
      w'.outputName = none ∧ w'.isNamespace = true)
    (hmodules : ∀ {m mod'}, g'.module? m = some mod' → ∃ mod, g.module? m = some mod ∧
      mod'.program.scope = mod.program.scope ∧ mod'.defaultVar = mod.defaultVar)
    (hexternals : g'.externals = g.externals)
    (hsources : g.externalSources ⊆ g'.externalSources) : g'.Arranged := by
  have hold : ∀ {v w'}, g'.var? v = some w' →
      (∃ w, g.var? v = some w ∧ w.Resembles w') ∨ w'.outputName = none ∧ w'.isNamespace = true := by
    intro v w' hw'
    cases hw : g.var? v with
    | none => exact .inr (hnew hw' hw)
    | some w =>
      obtain ⟨w'', hw'', hr⟩ := hvars hw
      rw [hw'] at hw''
      cases hw''
      exact .inl ⟨w, rfl, hr⟩
  have hscope : g'.symbols.scope? = g.symbols.scope? := by
    funext s
    simp [scope?, hscopes]
  refine ⟨?_, ?_, ?_, ?_, ?_, ?_, ?_⟩
  · refine h.symbols.withVars hscopes (fun hw => ?_) fun hw' hnone => ?_
    · obtain ⟨w', hw', hr⟩ := hvars hw
      exact ⟨w', hw', hr.isBinding, hr.isGlobal⟩
    · obtain ⟨merged, hform⟩ := Variable.isNamespace_iff.mp (hnew hw' hnone).2
      rw [Variable.isGlobal, hform]
  · intro v w' hw'
    rcases hold hw' with ⟨w, hw, hr⟩ | ⟨hnone, -⟩
    · exact hr.outputName.trans (h.unnamed hw)
    · exact hnone
  · intro m mod' hm
    obtain ⟨mod, hmod, hprogram, -⟩ := hmodules hm
    rw [hprogram, kind?, owner?, hscope]
    exact h.programs hmod
  · intro m mod' v hm hv
    obtain ⟨mod, hmod, hprogram, hdefault⟩ := hmodules hm
    obtain ⟨hlt, honly⟩ := h.defaultVar hmod (hdefault ▸ hv)
    obtain ⟨w, hw⟩ := Option.isSome_iff_exists.mp (var?_isSome_iff.mpr hlt)
    obtain ⟨w', hw', -⟩ := hvars hw
    refine ⟨lt_of_var? hw', fun r hr => ?_⟩
    rw [hprogram]
    refine honly r ?_
    rwa [Symbols.Holds, namesOf, hscope] at hr
  · intro k v hk
    rw [hexternals] at hk
    obtain ⟨w, hw, hform⟩ := h.externals hk
    obtain ⟨w', hw', hr⟩ := hvars hw
    exact ⟨w', hw', (hr.form_iff (.external k.1 k.2) (by simp) (by simp)).mpr hform⟩
  · intro v w' source imported hw' hform
    rw [hexternals]
    rcases hold hw' with ⟨w, hw, hr⟩ | ⟨-, hspace⟩
    · exact h.registered hw ((hr.form_iff (.external source imported) (by simp) (by simp)).mp hform)
    · rw [Variable.isNamespace, hform] at hspace
      cases hspace
  · intro k v hk
    rw [hexternals] at hk
    exact hsources (h.sources hk)

theorem addExternal (h : g.Arranged) {source : Bytes} (hsource : source ∈ g.externalSources)
    (imported : Bytes) :
    { (g.addVariable (newExternal source imported)).2 with
      externals := g.externals ++ [((source, imported), g.symbols.vars.size)] }.Arranged := by
  have hvar : ∀ v, (g.addVariable (newExternal source imported)).2.var? v =
      if v = g.symbols.vars.size then some (newExternal source imported) else g.var? v :=
    var?_addVariable _ _
  have hold : ∀ {v w}, g.var? v = some w →
      (g.addVariable (newExternal source imported)).2.var? v = some w := by
    intro v w hw
    rw [hvar, if_neg (Nat.ne_of_lt (lt_of_var? hw)), hw]
  have hnew : (g.addVariable (newExternal source imported)).2.var? g.symbols.vars.size =
      some (newExternal source imported) := (hvar _).trans (if_pos rfl)
  refine ⟨h.symbols.addVariable rfl, ?_, h.programs, ?_, ?_, ?_, ?_⟩
  · intro v w hw
    change (g.addVariable (newExternal source imported)).2.var? v = some w at hw
    rw [hvar] at hw
    split at hw
    · cases hw
      rfl
    · exact h.unnamed hw
  · intro m mod v hm hv
    obtain ⟨hlt, honly⟩ := h.defaultVar hm hv
    obtain ⟨w, hw⟩ := Option.isSome_iff_exists.mp (var?_isSome_iff.mpr hlt)
    exact ⟨lt_of_var? (hold hw), honly⟩
  · intro k v hk
    rcases List.mem_append.mp hk with hk | hk
    · obtain ⟨w, hw, hform⟩ := h.externals hk
      exact ⟨w, hold hw, hform⟩
    · cases List.mem_singleton.mp hk
      exact ⟨_, hnew, rfl⟩
  · intro v w source' imported' hw hform
    change (g.addVariable (newExternal source imported)).2.var? v = some w at hw
    rw [hvar] at hw
    split at hw
    · rename_i heq
      subst heq
      cases hw
      cases hform
      exact List.mem_append.mpr (.inr (List.mem_singleton.mpr rfl))
    · exact List.mem_append.mpr (.inl (h.registered hw hform))
  · intro k v hk
    rcases List.mem_append.mp hk with hk | hk
    · exact h.sources hk
    · cases List.mem_singleton.mp hk
      exact hsource

end Graph.Arranged

end Winnow
