import Winnow.Syntax.Symbols

/-!
# Where variables stand

A symbol table is read through four views: the kind of a scope, the module it belongs to, the scopes
around it and the names in it. Each change to a table is described by what it does to them.

A table is `Scoped` if every variable stands in one scope at most, and if no scope lies inside two
modules. The number of a scope that is not there yet may still become that of a module, so it counts
as one.
-/

namespace Winnow

variable {name : Bytes} {f : Scope → Scope} {s : ScopeId} {t : Symbols} {v : VarId} {w : Variable}

/-- A variable that was declared in a module under a name. -/
def Variable.IsBinding (w : Variable) : Prop :=
  ∃ kind ds init, w.form = .declared kind ds init ∧ kind ≠ .classReceiver

namespace Symbols

/-! ## Views -/

def namesOf (t : Symbols) (s : ScopeId) : List (Bytes × VarId) :=
  ((t.scope? s).map Scope.names).getD []

def outerOf (t : Symbols) (s : ScopeId) : List ScopeId := ((t.scope? s).map Scope.outer).getD []

def owner? (t : Symbols) (s : ScopeId) : Option ModuleId :=
  ((t.scope? s).map Scope.module).getD none

def Holds (t : Symbols) (s : ScopeId) (v : VarId) : Prop := v ∈ (t.namesOf s).map Prod.snd

def OnlyIn (t : Symbols) (v : VarId) (s : ScopeId) : Prop :=
  v < t.vars.size ∧ ∀ r, t.Holds r v → r = s

/-- The scope of a module, or a number that may become one. -/
def MayBeModule (t : Symbols) (s : ScopeId) : Prop := ∀ kind, t.kind? s = some kind → kind = .module

theorem holds_iff : t.Holds s v ↔ ∃ name, (name, v) ∈ t.namesOf s := by simp [Holds]

theorem chain_eq (t : Symbols) (s : ScopeId) : t.chain s = s :: t.outerOf s := rfl

theorem holds_of_lookupIn? (h : t.lookupIn? s name = some v) : t.Holds s v := by
  obtain ⟨scope, hscope, hname⟩ := Option.bind_eq_some_iff.mp h
  obtain ⟨before, after, hnames, -⟩ := List.lookup_eq_some_iff.mp hname
  exact holds_iff.mpr ⟨name, by simp [namesOf, hscope, hnames]⟩

/-! ### Variables -/

theorem var?_eq_none_iff : t.var? v = none ↔ t.vars.size ≤ v := by simp [var?]

theorem lt_of_var? (h : t.var? v = some w) : v < t.vars.size := by
  obtain ⟨hlt, -⟩ := Array.getElem?_eq_some_iff.mp h
  exact hlt

theorem var?_isSome_iff : (t.var? v).isSome ↔ v < t.vars.size := by simp [var?]

section

variable (t : Symbols)

@[simp] theorem var?_modifyVariable (v u : VarId) (f : Variable → Variable) :
    (t.modifyVariable v f).var? u = if v = u then (t.var? u).map f else t.var? u := by
  simp [var?, modifyVariable, Array.getElem?_modify]

@[simp] theorem size_modifyVariable (v : VarId) (f : Variable → Variable) :
    (t.modifyVariable v f).vars.size = t.vars.size := by simp [modifyVariable]

@[simp] theorem var?_addVariable (w : Variable) (u : VarId) :
    (t.addVariable w).2.var? u = if u = t.vars.size then some w else t.var? u := by
  simp [var?, addVariable, Array.getElem?_push]

@[simp] theorem scope?_addVariable (w : Variable) (s : ScopeId) :
    (t.addVariable w).2.scope? s = t.scope? s := rfl

@[simp] theorem size_addVariable (w : Variable) :
    (t.addVariable w).2.vars.size = t.vars.size + 1 := by simp [addVariable]

/-! ### Scopes -/

@[simp] theorem var?_modifyScope (s : ScopeId) (f : Scope → Scope) (u : VarId) :
    (t.modifyScope s f).var? u = t.var? u := rfl

@[simp] theorem scope?_modifyScope (s r : ScopeId) (f : Scope → Scope) :
    (t.modifyScope s f).scope? r = if s = r then (t.scope? r).map f else t.scope? r := by
  simp [scope?, modifyScope, Array.getElem?_modify]

@[simp] theorem size_modifyScope (s : ScopeId) (f : Scope → Scope) :
    (t.modifyScope s f).vars.size = t.vars.size := rfl

end

theorem map_scope?_modifyScope {α : Type} (view : Scope → α)
    (h : ∀ scope, view (f scope) = view scope) (t : Symbols) (s r : ScopeId) :
    ((t.modifyScope s f).scope? r).map view = (t.scope? r).map view := by
  rw [scope?_modifyScope]
  split
  · rw [Option.map_map, show view ∘ f = view from funext h]
  · rfl

section

variable (t : Symbols) (s r : ScopeId) (name : Bytes) (v : VarId)

@[simp] theorem kind?_enter :
    (t.enter s name v).kind? r = t.kind? r := by
  rw [kind?, enter, map_scope?_modifyScope Scope.kind, kind?]
  exact fun _ => rfl

@[simp] theorem outerOf_enter :
    (t.enter s name v).outerOf r = t.outerOf r := by
  rw [outerOf, enter, map_scope?_modifyScope Scope.outer, outerOf]
  exact fun _ => rfl

@[simp] theorem owner?_enter :
    (t.enter s name v).owner? r = t.owner? r := by
  rw [owner?, enter, map_scope?_modifyScope Scope.module, owner?]
  exact fun _ => rfl

theorem namesOf_enter : (t.enter s name v).namesOf r =
      if s = r ∧ (t.scope? s).isSome then t.namesOf r ++ [(name, v)] else t.namesOf r := by
  simp only [namesOf, enter, scope?_modifyScope]
  by_cases h : s = r
  · subst h
    cases t.scope? s <;> simp
  · simp [h]

end

theorem holds_enter {r : ScopeId} {u : VarId} :
    (t.enter s name v).Holds r u ↔ t.Holds r u ∨ s = r ∧ (t.scope? s).isSome ∧ u = v := by
  rw [Holds, namesOf_enter]
  split
  · rename_i h
    obtain ⟨rfl, hsome⟩ := h
    simp [Holds, hsome]
  · rename_i h
    simp only [Holds, iff_self_or]
    rintro ⟨hs, hsome, -⟩
    exact absurd ⟨hs, hsome⟩ h

section

variable (t : Symbols) (kind : ScopeKind) (parent : ScopeId) (module : Option ModuleId)

theorem map_scope?_addScope {α : Type} (view : Scope → α)
    (h : ∀ scope inner, view { scope with inner } = view scope) (s : ScopeId) :
    ((t.addScope kind parent module).2.scope? s).map view =
      if s = t.scopes.size then some (view { kind, outer := t.chain parent, module })
      else (t.scope? s).map view := by
  refine (map_scope?_modifyScope view (fun scope => h scope _) _ parent s).trans ?_
  show ((t.scopes.push _)[s]?).map view = _
  rw [Array.getElem?_push]
  split <;> rfl

theorem kind?_addScope (s : ScopeId) : (t.addScope kind parent module).2.kind? s =
    if s = t.scopes.size then some kind else t.kind? s :=
  map_scope?_addScope t kind parent module Scope.kind (fun _ _ => rfl) s

theorem kind?_addScope_ne_module (h : kind ≠ .module) :
    (t.addScope kind parent module).2.kind? (t.addScope kind parent module).1 ≠ some .module := by
  rw [kind?_addScope, if_pos (show (t.addScope kind parent module).1 = t.scopes.size from rfl)]
  exact fun heq => h (Option.some.inj heq)

theorem outerOf_addScope (s : ScopeId) : (t.addScope kind parent module).2.outerOf s =
    if s = t.scopes.size then t.chain parent else t.outerOf s := by
  rw [outerOf, map_scope?_addScope t kind parent module Scope.outer fun _ _ => rfl]
  split <;> rfl

@[simp] theorem namesOf_addScope (s : ScopeId) :
    (t.addScope kind parent module).2.namesOf s = t.namesOf s := by
  rw [namesOf, map_scope?_addScope t kind parent module Scope.names fun _ _ => rfl]
  split
  · rename_i h
    rw [namesOf, h, scope?, Array.getElem?_eq_none (Nat.le_refl _)]
    rfl
  · rfl

end

/-! ## Scoped tables -/

/-- The names of all scopes stand for variables of the table. -/
def Valid (t : Symbols) : Prop := ∀ s, ∀ e ∈ t.namesOf s, e.2 < t.vars.size

/-- Every variable stands in one place at most, globals in the global scope and bindings alone in
the scopes of modules. Modules stand side by side: no scope is inside two of them. -/
structure Scoped (t : Symbols) : Prop where
  valid : t.Valid
  distinct : ∀ s, ((t.namesOf s).map Prod.snd).Nodup
  once : ∀ {s r v}, t.Holds s v → t.Holds r v → s = r
  bindings : ∀ {s v}, t.kind? s = some .module → t.Holds s v →
    ∃ w, t.var? v = some w ∧ w.IsBinding
  globals : ∀ {v w}, t.var? v = some w → w.isGlobal = true → (w.name, v) ∈ t.namesOf globalScope
  global : t.kind? globalScope = some .global ∧ t.outerOf globalScope = []
  onlyGlobal : ∀ {s}, t.kind? s = some .global → s = globalScope
  oneModule : ∀ {s a b}, a ∈ t.outerOf s → b ∈ t.outerOf s → t.MayBeModule a → t.MayBeModule b →
    a = b
  outermost : ∀ {s a}, t.kind? s = some .module → a ∈ t.outerOf s → ¬ t.MayBeModule a

theorem Valid.lt (h : t.Valid) (hv : t.Holds s v) : v < t.vars.size := by
  obtain ⟨name, hname⟩ := holds_iff.mp hv
  exact h s _ hname

theorem Valid.lookupIn?_lt (h : t.Valid) (hv : t.lookupIn? s name = some v) :
    v < t.vars.size := h.lt (holds_of_lookupIn? hv)

namespace Scoped

variable {t t' : Symbols}

theorem isSome_global (h : t.Scoped) : (t.scope? globalScope).isSome := by
  obtain ⟨scope, hscope, -⟩ := Option.map_eq_some_iff.mp h.global.1
  rw [hscope]
  rfl

theorem empty : Symbols.empty.Scoped := by
  have hscope : ∀ s, Symbols.empty.scope? s = if s = globalScope then some { kind := .global }
      else none := by
    intro s
    cases s <;> rfl
  have hnames : ∀ s, Symbols.empty.namesOf s = [] := by
    intro s
    rw [namesOf, hscope]
    split <;> rfl
  have houter : ∀ s, Symbols.empty.outerOf s = [] := by
    intro s
    rw [outerOf, hscope]
    split <;> rfl
  have hkind : ∀ {s kind}, Symbols.empty.kind? s = some kind → s = globalScope := by
    intro s kind hs
    rw [kind?, hscope] at hs
    split at hs
    · assumption
    · cases hs
  have hvar : ∀ v, Symbols.empty.var? v = none := fun _ => rfl
  refine ⟨?_, ?_, ?_, ?_, ?_, ⟨rfl, rfl⟩, hkind, ?_, ?_⟩ <;>
    simp [Valid, Holds, hnames, houter, hvar]

/-- Tables that look alike, and whose variables are what they were. New variables stand nowhere, so
they may not be globals. -/
theorem congr (h : t.Scoped) (hkind : t'.kind? = t.kind?) (houter : t'.outerOf = t.outerOf)
    (hnames : t'.namesOf = t.namesOf)
    (hvars : ∀ {v w}, t.var? v = some w → ∃ w', t'.var? v = some w' ∧
      (w.IsBinding → w'.IsBinding) ∧ (w'.isGlobal = true → w.isGlobal = true ∧ w'.name = w.name))
    (hnew : ∀ {v w'}, t'.var? v = some w' → t.var? v = none → w'.isGlobal = false) :
    t'.Scoped := by
  have hholds : t'.Holds = t.Holds := by
    funext s v
    simp [Holds, hnames]
  have hmay : t'.MayBeModule = t.MayBeModule := by
    funext s
    simp [MayBeModule, hkind]
  refine ⟨?_, ?_, ?_, ?_, ?_, ?_, ?_, ?_, ?_⟩
  · intro s e he
    rw [hnames] at he
    obtain ⟨w, hw⟩ := Option.isSome_iff_exists.mp (var?_isSome_iff.mpr (h.valid s e he))
    obtain ⟨w', hw', -⟩ := hvars hw
    exact lt_of_var? hw'
  · rw [hnames]
    exact h.distinct
  · rw [hholds]
    exact h.once
  · intro s v hs hv
    rw [hkind] at hs
    rw [hholds] at hv
    obtain ⟨w, hw, hbinding⟩ := h.bindings hs hv
    obtain ⟨w', hw', hkeeps, -⟩ := hvars hw
    exact ⟨w', hw', hkeeps hbinding⟩
  · intro v w' hw' hglobal
    cases hw : t.var? v with
    | none =>
      rw [hnew hw' hw] at hglobal
      cases hglobal
    | some w =>
      obtain ⟨w'', hw'', -, hsame⟩ := hvars hw
      rw [hw'] at hw''
      cases hw''
      obtain ⟨hglobal, hname⟩ := hsame hglobal
      rw [hnames, hname]
      exact h.globals hw hglobal
  · rw [hkind, houter]
    exact h.global
  · rw [hkind]
    exact h.onlyGlobal
  · rw [houter, hmay]
    exact h.oneModule
  · rw [hkind, houter, hmay]
    exact h.outermost

theorem withVars (h : t.Scoped) (hscopes : t'.scopes = t.scopes)
    (hvars : ∀ {v w}, t.var? v = some w → ∃ w', t'.var? v = some w' ∧
      (w.IsBinding → w'.IsBinding) ∧ (w'.isGlobal = true → w.isGlobal = true ∧ w'.name = w.name))
    (hnew : ∀ {v w'}, t'.var? v = some w' → t.var? v = none → w'.isGlobal = false) :
    t'.Scoped := by
  have hscope : t'.scope? = t.scope? := by
    funext s
    simp [scope?, hscopes]
  refine h.congr ?_ ?_ ?_ hvars hnew <;> funext s
  · simp [kind?, hscope]
  · simp [outerOf, hscope]
  · simp [namesOf, hscope]

theorem addVariable (h : t.Scoped) (hw : w.isGlobal = false) : (t.addVariable w).2.Scoped := by
  refine h.withVars rfl (fun {v u} hu => ⟨u, ?_, id, fun hglobal => ⟨hglobal, rfl⟩⟩) ?_
  · rw [var?_addVariable, if_neg (Nat.ne_of_lt (lt_of_var? hu)), hu]
  · intro v u hu hnone
    rw [var?_addVariable] at hu
    split at hu
    · cases hu
      exact hw
    · rw [hu] at hnone
      cases hnone

theorem enter (h : t.Scoped) (hglobal : w.isGlobal = true → s = globalScope)
    (hmodule : t.kind? s = some .module → w.IsBinding) :
    ((t.addVariable w).2.enter s w.name t.vars.size).Scoped := by
  have hholds : ∀ {r u}, ((t.addVariable w).2.enter s w.name t.vars.size).Holds r u →
      t.Holds r u ∨ s = r ∧ u = t.vars.size := by
    intro r u hu
    exact (holds_enter.mp hu).imp_right fun hu => ⟨hu.1, hu.2.2⟩
  have hnew : ∀ {r}, ¬ t.Holds r t.vars.size := fun hr => Nat.lt_irrefl _ (h.valid.lt hr)
  have hvar : ∀ {u}, u < t.vars.size →
      ((t.addVariable w).2.enter s w.name t.vars.size).var? u = t.var? u := fun hu =>
    (var?_addVariable t w _).trans (if_neg (Nat.ne_of_lt hu))
  refine ⟨?_, ?_, ?_, ?_, ?_, ?_, ?_, ?_, ?_⟩
  · intro r e he
    rw [show ((t.addVariable w).2.enter s w.name t.vars.size).vars.size = t.vars.size + 1 from
      size_addVariable t w]
    rcases hholds (List.mem_map_of_mem he) with hold | ⟨-, hv⟩
    · exact Nat.lt_succ_of_lt (h.valid.lt hold)
    · exact hv ▸ Nat.lt_succ_self _
  · intro r
    rw [namesOf_enter]
    split
    · rw [List.map_append, List.nodup_append]
      refine ⟨h.distinct r, by simp, ?_⟩
      rintro a ha b hb rfl
      rw [List.map_singleton, List.mem_singleton] at hb
      subst hb
      exact hnew ha
    · exact h.distinct r
  · intro r q u hr hq
    rcases hholds hr with hr | ⟨rfl, rfl⟩ <;> rcases hholds hq with hq | ⟨rfl, hu⟩
    · exact h.once hr hq
    · exact absurd (hu ▸ hr) hnew
    · exact absurd hq hnew
    · rfl
  · intro r u hr hu
    rw [kind?_enter] at hr
    rcases hholds hu with hu | ⟨rfl, rfl⟩
    · rw [hvar (h.valid.lt hu)]
      exact h.bindings hr hu
    · exact ⟨w, (var?_addVariable t w _).trans (if_pos rfl), hmodule hr⟩
  · intro u x hx hx'
    change (t.addVariable w).2.var? u = some x at hx
    rw [var?_addVariable] at hx
    rw [namesOf_enter]
    split at hx
    · rename_i hu
      cases hx
      subst hu
      rw [if_pos ⟨hglobal hx', by rw [hglobal hx']; exact h.isSome_global⟩]
      simp
    · have hold : (x.name, u) ∈ (t.addVariable w).2.namesOf globalScope := h.globals hx hx'
      split
      · exact List.mem_append.mpr (.inl hold)
      · exact hold
  · rw [kind?_enter, outerOf_enter]
    exact h.global
  · intro r hr
    rw [kind?_enter] at hr
    exact h.onlyGlobal hr
  · intro r a b
    rw [outerOf_enter]
    simp only [MayBeModule, kind?_enter]
    exact h.oneModule
  · intro r a
    rw [outerOf_enter]
    simp only [MayBeModule, kind?_enter]
    exact h.outermost

theorem modifyScope (h : t.Scoped)
    (hf : ∀ scope, (f scope).kind = scope.kind ∧ (f scope).outer = scope.outer ∧
      (f scope).names = scope.names) : (t.modifyScope s f).Scoped := by
  refine h.congr (funext fun r => ?_) (funext fun r => ?_) (funext fun r => ?_)
    (fun {v w} hw => ⟨w, hw, id, fun hglobal => ⟨hglobal, rfl⟩⟩) ?_
  · exact map_scope?_modifyScope Scope.kind (fun scope => (hf scope).1) t s r
  · rw [outerOf, map_scope?_modifyScope Scope.outer fun scope => (hf scope).2.1, outerOf]
  · rw [namesOf, map_scope?_modifyScope Scope.names fun scope => (hf scope).2.2, namesOf]
  · intro v w hw hnone
    rw [var?_modifyScope, hnone] at hw
    cases hw

theorem not_mayBeModule_of_mem_outerOf (h : t.Scoped) {a : ScopeId} (hs : t.MayBeModule s)
    (ha : a ∈ t.outerOf s) : ¬ t.MayBeModule a := by
  cases hkind : t.kind? s with
  | none =>
    rw [outerOf, Option.map_eq_none_iff.mp hkind] at ha
    cases ha
  | some kind =>
    cases hs kind hkind
    exact h.outermost hkind ha

theorem addScope (h : t.Scoped) {kind : ScopeKind} {parent : ScopeId} {module : Option ModuleId}
    (hkind : kind ≠ .global) (hmodule : kind = .module → parent = globalScope) :
    (t.addScope kind parent module).2.Scoped := by
  have hnew : t.kind? t.scopes.size = none := by
    rw [kind?, scope?, Array.getElem?_eq_none (Nat.le_refl _)]
    rfl
  have hglobal : globalScope ≠ t.scopes.size := by
    intro heq
    rw [← heq, h.global.1] at hnew
    cases hnew
  have hmay : ∀ {a}, (t.addScope kind parent module).2.MayBeModule a → t.MayBeModule a := by
    intro a ha k hk
    refine ha k ?_
    rw [kind?_addScope, if_neg, hk]
    rintro rfl
    rw [hnew] at hk
    cases hk
  have hholds : (t.addScope kind parent module).2.Holds = t.Holds := by
    funext s v
    simp [Holds]
  refine ⟨?_, ?_, ?_, ?_, ?_, ⟨?_, ?_⟩, ?_, ?_, ?_⟩
  · intro s e he
    rw [namesOf_addScope] at he
    exact h.valid s e he
  · intro s
    rw [namesOf_addScope]
    exact h.distinct s
  · rw [hholds]
    exact h.once
  · intro s v hs hv
    rw [hholds] at hv
    rw [kind?_addScope] at hs
    split at hs
    · rename_i heq
      subst heq
      exact absurd hv (by simp [Holds, namesOf, Option.map_eq_none_iff.mp hnew])
    · exact h.bindings hs hv
  · intro v w hw hw'
    rw [namesOf_addScope]
    exact h.globals hw hw'
  · rw [kind?_addScope, if_neg hglobal]
    exact h.global.1
  · rw [outerOf_addScope, if_neg hglobal]
    exact h.global.2
  · intro s hs
    rw [kind?_addScope] at hs
    split at hs
    · exact absurd (Option.some.inj hs) hkind
    · exact h.onlyGlobal hs
  · intro s a b ha hb hma hmb
    replace hma := hmay hma
    replace hmb := hmay hmb
    rw [outerOf_addScope] at ha hb
    split at ha
    · rw [if_pos ‹_›] at hb
      -- If the parent may become a module, nothing around it may.
      rcases List.mem_cons.mp ha with rfl | ha <;> rcases List.mem_cons.mp hb with rfl | hb
      · rfl
      · exact absurd hmb (h.not_mayBeModule_of_mem_outerOf hma hb)
      · exact absurd hma (h.not_mayBeModule_of_mem_outerOf hmb ha)
      · exact h.oneModule ha hb hma hmb
    · rw [if_neg ‹_›] at hb
      exact h.oneModule ha hb hma hmb
  · intro s a hs ha hma
    replace hma := hmay hma
    rw [kind?_addScope] at hs
    rw [outerOf_addScope] at ha
    split at hs
    · rw [if_pos ‹_›, hmodule (Option.some.inj hs), chain_eq, h.global.2,
        List.mem_singleton] at ha
      subst ha
      cases hma _ h.global.1
    · rw [if_neg ‹_›] at ha
      exact h.outermost hs ha hma

end Scoped

end Symbols

end Winnow
