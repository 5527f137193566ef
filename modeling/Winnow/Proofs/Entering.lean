import Winnow.Proofs.Scoping
import Winnow.Syntax.Node

/-!
# What a parser enters into the symbol table

A parser adds scopes and variables, and declares variables again; it takes nothing back. `Entered`
says this of the tables before and after, given which nodes may declare which variables: every new
declaration of a variable is one of those, and every new variable belongs to the module. Variables
that were there are entered nowhere else, and the table stays `Symbols.Scoped`.
-/

namespace Winnow

open Symbols

variable {w w' : Variable} {d : NodeId} {module : Option ModuleId} {init : Option NodeId}
  {s : ScopeId} {v : VarId}

/-! ## Entering -/

/-- A variable after further declarations: nothing else of it changes. -/
structure Redeclared (w w' : Variable) : Prop where
  rest : w' = { w with form := w'.form }
  form : w'.form = w.form ∨ ∃ kind ds init more init', w.form = .declared kind ds init ∧
    w'.form = .declared kind (ds ++ more) init'

/-- A variable as the parser of a module makes it. -/
structure Fresh (module : Option ModuleId) (w : Variable) : Prop where
  rest : w = { name := w.name, form := w.form, module }
  form : w.isDeclared = true ∨ w.isReceiver = true

/-- What a parser may enter into the symbol table of a bundle, if nodes declare variables as
`declares` says. -/
structure Entered (module : Option ModuleId) (t t' : Symbols) (declares : NodeId → VarId → Prop) :
    Prop where
  old : ∀ {v w}, t.var? v = some w → ∃ w', t'.var? v = some w' ∧ Redeclared w w'
  new : ∀ {v w'}, t'.var? v = some w' → t.var? v = none → Fresh module w'
  declarations : ∀ {v w' d}, t'.var? v = some w' → d ∈ w'.declarations →
    (∃ w, t.var? v = some w ∧ d ∈ w.declarations) ∨ declares d v
  scopes : ∀ {s scope}, t.scope? s = some scope → ∃ scope', t'.scope? s = some scope' ∧
    scope'.kind = scope.kind ∧ scope'.outer = scope.outer ∧ scope'.module = scope.module
  holds : ∀ {s v}, t'.Holds s v → t.Holds s v ∨ t.vars.size ≤ v
  held : ∀ {s v}, t.Holds s v → t'.Holds s v
  keeps : t.Scoped → t'.Scoped

theorem Redeclared.refl (w : Variable) : Redeclared w w := ⟨rfl, .inl rfl⟩

theorem Redeclared.trans {a b c : Variable} (h : Redeclared a b) (h' : Redeclared b c) :
    Redeclared a c := by
  refine ⟨?_, ?_⟩
  · rw [h'.rest, h.rest]
  · rcases h.form with hab | ⟨kind, ds, init, more, init', ha, hb⟩
    · rw [← hab]; exact h'.form
    · rcases h'.form with hbc | ⟨kind', ds', init1, more', init2, hb', hc⟩
      · exact .inr ⟨kind, ds, init, more, init', ha, hbc.trans hb⟩
      · rw [hb] at hb'
        cases hb'
        exact .inr ⟨kind, ds, init, more ++ more', init2, ha, by rw [hc, List.append_assoc]⟩

theorem Fresh.redeclared (h : Fresh module w) (h' : Redeclared w w') : Fresh module w' := by
  refine ⟨?_, ?_⟩
  · rw [h'.rest, h.rest]
  · rcases h'.form with hsame | ⟨kind, ds, init, more, init', -, hform⟩
    · simpa only [Variable.isDeclared, Variable.isReceiver, hsame] using h.form
    · exact .inl (by simp [Variable.isDeclared, hform])

theorem Redeclared.isBinding (h : Redeclared w w') (hw : w.IsBinding) : w'.IsBinding := by
  obtain ⟨kind, ds, init, hform, hkind⟩ := hw
  rcases h.form with hsame | ⟨kind', ds', init1, more, init2, hold, hnew⟩
  · exact ⟨kind, ds, init, hsame.trans hform, hkind⟩
  · rw [hform] at hold
    cases hold
    exact ⟨kind, ds ++ more, init2, hnew, hkind⟩

theorem Redeclared.isGlobal (h : Redeclared w w') (hw' : w'.isGlobal = true) :
    w.isGlobal = true ∧ w'.name = w.name := by
  refine ⟨?_, by rw [h.rest]⟩
  rcases h.form with hsame | ⟨kind, ds, init, more, init', -, hnew⟩
  · rw [Variable.isGlobal, ← hsame]
    exact hw'
  · rw [Variable.isGlobal, hnew] at hw'
    cases hw'

theorem Fresh.isGlobal (h : Fresh module w) : w.isGlobal = false := by
  have hform := h.form
  unfold Variable.isDeclared Variable.isReceiver at hform
  unfold Variable.isGlobal
  split <;> simp_all

theorem Redeclared.redeclare (w : Variable) (d : NodeId) (init : Option NodeId) :
    Redeclared w (w.redeclare d init) := by
  unfold Variable.redeclare
  split
  · rename_i kind ds old hform
    exact ⟨rfl, .inr ⟨kind, ds, old, [d], _, hform, rfl⟩⟩
  · exact Redeclared.refl w

theorem mem_declarations_redeclare {e : NodeId} (h : e ∈ (w.redeclare d init).declarations) :
    e ∈ w.declarations ∨ e = d := by
  unfold Variable.redeclare at h
  split at h
  · rename_i kind ds old hform
    simpa [Variable.declarations, hform] using h
  · exact .inl h

namespace Entered

variable {module : Option ModuleId} {t t₁ t₂ : Symbols} {declares may : NodeId → VarId → Prop}

theorem refl (t : Symbols) : Entered module t t declares where
  old := fun h => ⟨_, h, Redeclared.refl _⟩
  new := fun h hnone => by rw [h] at hnone; cases hnone
  declarations := fun h hd => .inl ⟨_, h, hd⟩
  scopes := fun h => ⟨_, h, rfl, rfl, rfl⟩
  holds := .inl
  held := id
  keeps := id

theorem mono (h : Entered module t t₁ declares) (hmay : ∀ d v, declares d v → may d v) :
    Entered module t t₁ may where
  old := h.old
  new := h.new
  declarations := fun hv hd => (h.declarations hv hd).imp id (hmay _ _)
  scopes := h.scopes
  holds := h.holds
  held := h.held
  keeps := h.keeps

theorem size_mono (h : Entered module t t₁ declares) (hv : v < t.vars.size) : v < t₁.vars.size := by
  obtain ⟨w, hw⟩ := Option.isSome_iff_exists.mp (var?_isSome_iff.mpr hv)
  obtain ⟨w', hw', -⟩ := h.old hw
  exact lt_of_var? hw'

theorem onlyIn (h : Entered module t t₁ declares) (hv : t.OnlyIn v s) : t₁.OnlyIn v s := by
  refine ⟨h.size_mono hv.1, fun r hr => ?_⟩
  rcases h.holds hr with hr | hnew
  · exact hv.2 r hr
  · exact absurd hv.1 (Nat.not_lt.mpr hnew)

theorem trans (h1 : Entered module t t₁ declares) (h2 : Entered module t₁ t₂ declares) :
    Entered module t t₂ declares where
  old := fun hv => by
    obtain ⟨w1, hw1, hr1⟩ := h1.old hv
    obtain ⟨w2, hw2, hr2⟩ := h2.old hw1
    exact ⟨w2, hw2, hr1.trans hr2⟩
  new := fun {v w2} hw2 hnone => by
    cases hw1 : t₁.var? v with
    | none => exact h2.new hw2 hw1
    | some w1 =>
      obtain ⟨w, hw, hr⟩ := h2.old hw1
      rw [hw2] at hw
      cases hw
      exact (h1.new hw1 hnone).redeclared hr
  declarations := fun hw2 hd => by
    rcases h2.declarations hw2 hd with ⟨w1, hw1, hd1⟩ | hn
    · exact h1.declarations hw1 hd1
    · exact .inr hn
  scopes := fun hs => by
    obtain ⟨s1, hs1, hk1, ho1, hm1⟩ := h1.scopes hs
    obtain ⟨s2, hs2, hk2, ho2, hm2⟩ := h2.scopes hs1
    exact ⟨s2, hs2, hk2.trans hk1, ho2.trans ho1, hm2.trans hm1⟩
  holds := fun hv => by
    rcases h2.holds hv with hv | hnew
    · exact h1.holds hv
    · exact .inr (Nat.not_lt.mp fun hlt => Nat.not_lt.mpr hnew (h1.size_mono hlt))
  held := fun hv => h2.held (h1.held hv)
  keeps := fun h => h2.keeps (h1.keeps h)

/-! ### The steps -/

theorem addVariable (hw : Fresh module w) (hd : ∀ d ∈ w.declarations, declares d t.vars.size) :
    Entered module t (t.addVariable w).2 declares where
  old := fun {v u} hv => by
    refine ⟨u, ?_, Redeclared.refl u⟩
    rw [var?_addVariable, if_neg (Nat.ne_of_lt (lt_of_var? hv)), hv]
  new := fun {v u} hv hnone => by
    rw [var?_addVariable] at hv
    split at hv
    · cases hv; exact hw
    · rw [hv] at hnone; cases hnone
  declarations := fun {v u d} hv hmem => by
    rw [var?_addVariable] at hv
    split at hv
    · rename_i heq
      cases hv; subst heq
      exact .inr (hd d hmem)
    · exact .inl ⟨u, hv, hmem⟩
  scopes := fun hs => ⟨_, hs, rfl, rfl, rfl⟩
  holds := .inl
  held := id
  keeps := fun h => h.addVariable hw.isGlobal

/-- A new variable that is entered into a scope. Those of modules hold bindings alone. -/
theorem enter (hw : Fresh module w) (hd : ∀ d ∈ w.declarations, declares d t.vars.size)
    (hs : t.kind? s = some .module → w.IsBinding) :
    Entered module t ((t.addVariable w).2.enter s w.name t.vars.size) declares where
  old := (addVariable hw hd).old
  new := (addVariable hw hd).new
  declarations := (addVariable hw hd).declarations
  scopes := fun {r scope} hr => by
    rw [Symbols.enter, scope?_modifyScope, scope?_addVariable, hr]
    split <;> exact ⟨_, rfl, rfl, rfl, rfl⟩
  holds := fun hv => (Symbols.holds_enter.mp hv).imp_right fun hv => Nat.le_of_eq hv.2.2.symm
  held := fun hv => Symbols.holds_enter.mpr (.inl hv)
  keeps := fun h => h.enter (fun hglobal => by rw [hw.isGlobal] at hglobal; cases hglobal) hs

theorem redeclare (hd : declares d v) :
    Entered module t (t.modifyVariable v fun w => w.redeclare d init) declares := by
  have hold : ∀ {u w}, t.var? u = some w → ∃ w',
      (t.modifyVariable v fun w => w.redeclare d init).var? u = some w' ∧ Redeclared w w' := by
    intro u w hu
    by_cases heq : v = u
    · exact ⟨_, by rw [var?_modifyVariable, if_pos heq, hu]; rfl, Redeclared.redeclare ..⟩
    · exact ⟨w, by rw [var?_modifyVariable, if_neg heq, hu], Redeclared.refl w⟩
  have hnew : ∀ {u w}, (t.modifyVariable v fun w => w.redeclare d init).var? u = some w →
      t.var? u ≠ none := by
    intro u w hu hnone
    rw [var?_modifyVariable, hnone] at hu
    split at hu <;> cases hu
  refine ⟨hold, fun hu hnone => absurd hnone (hnew hu), ?_, fun hs => ⟨_, hs, rfl, rfl, rfl⟩, .inl, id,
    fun h => h.withVars rfl (fun hu => ?_) fun hu hnone => absurd hnone (hnew hu)⟩
  · intro u w e hu he
    rw [var?_modifyVariable] at hu
    split at hu
    · rename_i heq
      subst heq
      obtain ⟨w0, hw0, rfl⟩ := Option.map_eq_some_iff.mp hu
      rcases mem_declarations_redeclare he with h | rfl
      · exact .inl ⟨w0, hw0, h⟩
      · exact .inr hd
    · exact .inl ⟨w, hu, he⟩
  · obtain ⟨w', hw', hr⟩ := hold hu
    exact ⟨w', hw', hr.isBinding, hr.isGlobal⟩

theorem rescope (hvars : ∀ v, t₁.var? v = t.var? v)
    (hscopes : ∀ {s scope}, t.scope? s = some scope → ∃ scope', t₁.scope? s = some scope' ∧
      scope'.kind = scope.kind ∧ scope'.outer = scope.outer ∧ scope'.module = scope.module)
    (hnames : ∀ s, t₁.namesOf s = t.namesOf s) (hkeeps : t.Scoped → t₁.Scoped) :
    Entered module t t₁ declares where
  old := fun hv => ⟨_, (hvars _).trans hv, Redeclared.refl _⟩
  new := fun hv hnone => by rw [hvars, hnone] at hv; cases hv
  declarations := fun hv hd => .inl ⟨_, (hvars _).symm.trans hv, hd⟩
  scopes := hscopes
  holds := fun hv => .inl (by rwa [Symbols.Holds, hnames] at hv)
  held := fun hv => by rwa [Symbols.Holds, hnames]
  keeps := hkeeps

theorem addScope (kind : ScopeKind) (parent : ScopeId) (hkind : kind ≠ .global)
    (hmodule : kind = .module → parent = globalScope) :
    Entered module t (t.addScope kind parent module).2 declares := by
  refine rescope (fun _ => rfl) (fun {s scope} hs => ?_) (t.namesOf_addScope kind parent module)
    fun h => h.addScope hkind hmodule
  obtain ⟨hlt, -⟩ := Array.getElem?_eq_some_iff.mp hs
  have hview := t.map_scope?_addScope kind parent module
    (fun scope => (scope.kind, scope.outer, scope.module)) (fun _ _ => rfl) s
  rw [if_neg (Nat.ne_of_lt hlt), hs] at hview
  obtain ⟨scope', hs', heq⟩ := Option.map_eq_some_iff.mp hview
  simp only [Prod.mk.injEq] at heq
  exact ⟨scope', hs', heq⟩

theorem setInstance {i : ScopeId} : Entered module t
    (t.modifyScope s fun scope => { scope with instanceScope := some i }) declares := by
  refine rescope (fun _ => rfl) (fun {r scope} hr => ?_) (fun r => ?_)
    fun h => h.modifyScope fun _ => ⟨rfl, rfl, rfl⟩
  · rw [scope?_modifyScope, hr]
    split <;> exact ⟨_, rfl, rfl, rfl, rfl⟩
  · rw [namesOf, map_scope?_modifyScope Scope.names, namesOf]
    exact fun _ => rfl

theorem addReceiver (hs : t.kind? s ≠ some .module) :
    Entered module t (t.addReceiver s module) declares :=
  enter ⟨rfl, .inr rfl⟩ (fun _ hd => absurd hd List.not_mem_nil) fun hmodule => absurd hmodule hs

theorem addFunctionScope (parent : ScopeId) (isArrow : Bool) :
    Entered module t (t.addFunctionScope parent isArrow module).2 declares := by
  refine (addScope .function parent nofun nofun).trans ?_
  cases isArrow with
  | true => exact refl _
  | false =>
    exact addReceiver (t.kind?_addScope_ne_module .function parent module nofun)

theorem addClassScope (parent : ScopeId) {definition : NodeId}
    (hd : declares definition t.vars.size) :
    Entered module t (t.addClassScope parent definition module).2 declares := by
  refine (addScope .classBody parent nofun nofun).trans ((enter ⟨rfl, .inl rfl⟩ ?_ ?_).trans
    ((addScope .classInstance _ nofun nofun).trans ((addReceiver ?_).trans setInstance)))
  · intro d hmem
    rw [List.mem_singleton.mp hmem]
    exact hd
  · exact fun hmodule => absurd hmodule (t.kind?_addScope_ne_module .classBody parent module nofun)
  · exact kind?_addScope_ne_module _ .classInstance _ module nofun

theorem declare {name : Bytes} {kind : VariableKind} (hkind : kind ≠ .classReceiver)
    (hd : declares d (t.declare s name kind d init module).1) :
    Entered module t (t.declare s name kind d init module).2.2 declares := by
  unfold Symbols.declare at hd ⊢
  split at hd
  · exact redeclare hd
  · refine enter ⟨rfl, .inl rfl⟩ (fun e he => ?_) fun _ => ⟨kind, [d], init, rfl, hkind⟩
    rw [List.mem_singleton.mp he]
    exact hd

end Entered

/-- A name that is declared stands for a variable that stands in no other scope. -/
theorem Symbols.Scoped.declare_onlyIn {t : Symbols} (h : t.Scoped) (s : ScopeId) (name : Bytes)
    (kind : VariableKind) (d : NodeId) (init : Option NodeId) (module : Option ModuleId) :
    (t.declare s name kind d init module).2.2.OnlyIn
      (t.declare s name kind d init module).1 s := by
  unfold Symbols.declare
  split
  · rename_i v hv
    refine ⟨?_, fun r hr => h.once hr (holds_of_lookupIn? hv)⟩
    rw [size_modifyVariable]
    exact h.valid.lookupIn?_lt hv
  · refine ⟨by simp [Symbols.enter, Symbols.addVariable], fun r hr => ?_⟩
    rcases Symbols.holds_enter.mp hr with hr | ⟨hs, -⟩
    · exact absurd (h.valid.lt hr) (Nat.lt_irrefl _)
    · exact hs.symm

end Winnow
