import Mathlib.Data.List.Find
import Mathlib.Order.Interval.Set.Basic
import Winnow.Proofs.Numbering

/-!
# Nested scopes

Scopes are numbered in the order in which constructs open them, so the scopes inside a construct
have the numbers from one up to another. While it is read, names are looked up in these and in those
around it, and entered into these and those that its setting takes names into (`Confined`,
`Builds.reading`).

An expression takes no names into the scopes around it. So the names that are declared inside a part
of an expression are out of reach for everything outside: the part is sealed (`Seal`).
-/

namespace Winnow

open List Symbols Setting

variable {parent r s : ScopeId} {os os' : List Outline} {t t' : Symbols} {ns : Multiset Node}
  {count : Nat} {n : Node} {declares : NodeId → VarId → Prop} {module : Option ModuleId}
  {init : Option NodeId} {k : Outline}

namespace Symbols

/-! ## Views -/

def Declares (t : Symbols) (d : NodeId) (v : VarId) : Prop :=
  ∃ w, t.var? v = some w ∧ d ∈ w.declarations

/-- Every scope has a greater number than those around it. -/
def Nested (t : Symbols) : Prop := ∀ s, ∀ r ∈ t.outerOf s, r < s

/-- A node may mean a variable of a scope: it is a name that is looked up there, or the declaration
of a name that stands there. -/
def Reaches (t : Symbols) (s : ScopeId) (n : Node) : Prop :=
  (∃ r, n.scope? = some r ∧ s ∈ t.chain r) ∨ ∃ b, n = .binder b ∧ t.Holds s b.var

/-- The scope that a node is looked up in and the variable that it binds are there. -/
def Knows (t : Symbols) (n : Node) : Prop :=
  (∀ r, n.scope? = some r → r < t.scopes.size) ∧ ∀ v, n.bound? = some v → v < t.vars.size

theorem scope?_isSome_iff : (t.scope? s).isSome ↔ s < t.scopes.size := by simp [scope?]

theorem kind?_of_le (h : t.scopes.size ≤ s) : t.kind? s = none := by
  rw [kind?, scope?, Array.getElem?_eq_none h]
  rfl

theorem kind?_ne_of_le {kind : ScopeKind} (h : t.scopes.size ≤ s) : t.kind? s ≠ some kind := by
  rw [kind?_of_le h]
  exact nofun

theorem outerOf_of_le (h : t.scopes.size ≤ s) : t.outerOf s = [] := by
  rw [outerOf, scope?, Array.getElem?_eq_none h]
  rfl

theorem Holds.lt {v : VarId} (h : t.Holds s v) : s < t.scopes.size := by
  refine Nat.not_le.mp fun hle => ?_
  rw [Holds, namesOf, scope?, Array.getElem?_eq_none hle] at h
  cases h

theorem Nested.chain (h : t.Nested) (hr : r ∈ t.chain s) : r ≤ s := by
  rcases mem_cons.mp hr with rfl | hr
  · exact Nat.le_refl _
  · exact Nat.le_of_lt (h s r hr)

theorem Reaches.lt (h : t.Nested) (hn : t.Knows n) (hs : t.Reaches s n) : s < t.scopes.size := by
  rcases hs with ⟨r, hr, hs⟩ | ⟨b, -, hs⟩
  · exact Nat.lt_of_le_of_lt (h.chain hs) (hn.1 r hr)
  · exact hs.lt

theorem hoistScope_mem_chain (t : Symbols) (s : ScopeId) : t.hoistScope s ∈ t.chain s := by
  unfold hoistScope
  cases h : (t.chain s).find? fun r => t.kind? r != some .block with
  | none => exact mem_cons_self
  | some r => exact mem_of_find?_eq_some h

end Symbols

/-! ## Tables that grow -/

namespace Entered

variable {module : Option ModuleId} {t t' : Symbols} {declares : NodeId → VarId → Prop}

section

variable (h : Entered module t t' declares)

include h

theorem scope (hs : s < t.scopes.size) :
    ∃ scope scope', t.scope? s = some scope ∧ t'.scope? s = some scope' ∧
      scope'.kind = scope.kind ∧ scope'.outer = scope.outer := by
  obtain ⟨scope, hscope⟩ := Option.isSome_iff_exists.mp (scope?_isSome_iff.mpr hs)
  obtain ⟨scope', hscope', hkind, houter, -⟩ := h.scopes hscope
  exact ⟨scope, scope', hscope, hscope', hkind, houter⟩

theorem scopes_size : t.scopes.size ≤ t'.scopes.size := by
  refine Nat.not_lt.mp fun hlt => ?_
  obtain ⟨_, scope', -, hscope', -⟩ := h.scope hlt
  exact Nat.lt_irrefl _ (scope?_isSome_iff.mp (Option.isSome_iff_exists.mpr ⟨_, hscope'⟩))

theorem kind? (hs : s < t.scopes.size) : t'.kind? s = t.kind? s := by
  obtain ⟨scope, scope', hold, hnew, hkind, -⟩ := h.scope hs
  rw [Symbols.kind?, Symbols.kind?, hold, hnew, Option.map_some, Option.map_some, hkind]

theorem outerOf (hs : s < t.scopes.size) : t'.outerOf s = t.outerOf s := by
  obtain ⟨scope, scope', hold, hnew, -, houter⟩ := h.scope hs
  rw [Symbols.outerOf, Symbols.outerOf, hold, hnew, Option.map_some, Option.map_some, houter]

theorem chain (hs : s < t.scopes.size) : t'.chain s = t.chain s := by
  rw [chain_eq, chain_eq, h.outerOf hs]

theorem grows : Entered module t t' fun _ _ => True :=
  h.mono fun _ _ _ => trivial

theorem declares_or {d : NodeId} {v : VarId}
    (hd : t'.Declares d v) : t.Declares d v ∨ declares d v := by
  obtain ⟨w', hw', hmem⟩ := hd
  exact h.declarations hw' hmem

theorem knows (hn : t.Knows n) : t'.Knows n :=
  ⟨fun r hr => Nat.lt_of_lt_of_le (hn.1 r hr) h.scopes_size, fun v hv => h.size_mono (hn.2 v hv)⟩

theorem reaches (hn : t.Knows n) (hs : t'.Reaches s n) : t.Reaches s n := by
  rcases hs with ⟨r, hr, hs⟩ | ⟨b, rfl, hs⟩
  · exact .inl ⟨r, hr, h.chain (hn.1 r hr) ▸ hs⟩
  · refine .inr ⟨b, rfl, (h.holds hs).resolve_right fun hle => ?_⟩
    exact absurd (hn.2 b.var rfl) (Nat.not_lt.mpr hle)

theorem hoistScope (ht : t.Nested) (hs : s < t.scopes.size) : t'.hoistScope s = t.hoistScope s := by
  unfold Symbols.hoistScope
  rw [h.chain hs]
  rw [find?_congr]
  intro r hr
  rw [h.kind? (Nat.lt_of_le_of_lt (ht.chain hr) hs)]

end

end Entered

/-! ### Steps -/

namespace Symbols

variable (t : Symbols) (kind : ScopeKind) (parent : ScopeId) (module : Option ModuleId)

@[simp] theorem scopes_size_addScope :
    (t.addScope kind parent module).2.scopes.size = t.scopes.size + 1 := by
  simp [addScope, modifyScope]

@[simp] theorem scopes_size_enter (s : ScopeId) (name : Bytes) (v : VarId) :
    (t.enter s name v).scopes.size = t.scopes.size := by simp [enter, modifyScope]

@[simp] theorem scopes_size_addVariable (w : Variable) :
    (t.addVariable w).2.scopes.size = t.scopes.size := rfl

theorem scopes_size_declare (s : ScopeId) (name : Bytes) (k : VariableKind) (d : NodeId)
    (init : Option NodeId) :
    (t.declare s name k d init module).2.2.scopes.size = t.scopes.size := by
  unfold declare
  split
  · rfl
  · exact scopes_size_enter _ _ _ _

theorem outerOf_declare (s r : ScopeId) (name : Bytes) (k : VariableKind) (d : NodeId)
    (init : Option NodeId) : (t.declare s name k d init module).2.2.outerOf r = t.outerOf r := by
  unfold declare
  split
  · rfl
  · exact outerOf_enter _ _ _ _ _

theorem holds_declare (hs : s < t.scopes.size) (name : Bytes) (k : VariableKind) (d : NodeId)
    (init : Option NodeId) :
    (t.declare s name k d init module).2.2.Holds s (t.declare s name k d init module).1 := by
  unfold declare
  split
  · rename_i v hv
    exact holds_of_lookupIn? hv
  · exact holds_enter.mpr (.inr ⟨rfl, scope?_isSome_iff.mpr hs, rfl⟩)

/-- The receiver of static members stands in the scope of the body of its class. -/
theorem holds_addClassScope (definition : NodeId) :
    (t.addClassScope parent definition module).2.Holds t.scopes.size t.vars.size := by
  have hlater : Entered module (((t.addScope .classBody parent module).2.addVariable {
      name := receiverName
      form := .declared .classReceiver [definition] (some definition)
      module }).2.enter t.scopes.size receiverName t.vars.size)
      (t.addClassScope parent definition module).2 fun _ _ => True :=
    (Entered.addScope .classInstance _ (by decide) nofun).trans
      ((Entered.addReceiver (kind?_addScope_ne_module _ .classInstance _ module
        (by decide))).trans Entered.setInstance)
  refine hlater.held (holds_enter.mpr (.inr ⟨rfl, ?_, rfl⟩))
  rw [scope?_isSome_iff, scopes_size_addVariable, scopes_size_addScope]
  exact Nat.lt_succ_self _

end Symbols

/-- Some scopes are added inside another, none of them that of a module. -/
structure Symbols.Adds (t t' : Symbols) (parent : ScopeId) (count : Nat) : Prop where
  size : t'.scopes.size = t.scopes.size + count
  old : ∀ {s}, s < t.scopes.size → t'.outerOf s = t.outerOf s ∧ t'.kind? s = t.kind? s
  outer : ∀ {s r}, t.scopes.size ≤ s → s < t.scopes.size + count → r ∈ t'.outerOf s →
    t.scopes.size ≤ r ∧ r < s ∨ r ∈ t.chain parent
  kinds : ∀ {s}, t.scopes.size ≤ s → s < t.scopes.size + count → t'.kind? s ≠ some .module

namespace Symbols.Adds

theorem congr {t₁ : Symbols} (h : t.Adds t' parent count) (hsize : t₁.scopes.size = t'.scopes.size)
    (houter : ∀ s, t₁.outerOf s = t'.outerOf s) (hkind : ∀ s, t₁.kind? s = t'.kind? s) :
    t.Adds t₁ parent count where
  size := hsize.trans h.size
  old := fun hs => ⟨(houter _).trans (h.old hs).1, (hkind _).trans (h.old hs).2⟩
  outer := fun hs hs' hr => h.outer hs hs' (houter _ ▸ hr)
  kinds := fun hs hs' => hkind _ ▸ h.kinds hs hs'

theorem trans {t₁ t₂ : Symbols} {inner : ScopeId} {count' : Nat} (h : t.Adds t₁ parent count)
    (h' : t₁.Adds t₂ inner count') (hle : t.scopes.size ≤ inner)
    (hlt : inner < t.scopes.size + count) : t.Adds t₂ parent (count + count') where
  size := by rw [h'.size, h.size, Nat.add_assoc]
  old := fun hs => by
    have hs' := Nat.lt_of_lt_of_le hs (Nat.le_trans (Nat.le_add_right _ count) (Nat.le_of_eq h.size.symm))
    exact ⟨(h'.old hs').1.trans (h.old hs).1, (h'.old hs').2.trans (h.old hs).2⟩
  outer := fun {s r} hs hs' hr => by
    by_cases hnew : s < t.scopes.size + count
    · rw [(h'.old (by rw [h.size]; exact hnew)).1] at hr
      exact h.outer hs hnew hr
    · have hsize := h.size
      have hback : t.scopes.size + count ≤ s := Nat.not_lt.mp hnew
      have hfront : s < t₁.scopes.size + count' := by omega
      rcases h'.outer (hsize ▸ hback) hfront hr with ⟨hle', hlt'⟩ | hr
      · refine .inl ⟨Nat.le_trans ?_ hle', hlt'⟩
        omega
      · rw [chain_eq] at hr
        rcases mem_cons.mp hr with rfl | hr
        · exact .inl ⟨hle, Nat.lt_of_lt_of_le hlt hback⟩
        · rcases h.outer hle hlt hr with ⟨hle', hlt'⟩ | hr
          · exact .inl ⟨hle', Nat.lt_trans hlt' (Nat.lt_of_lt_of_le hlt hback)⟩
          · exact .inr hr
  kinds := fun {s} hs hs' => by
    have hsize := h.size
    by_cases hnew : s < t.scopes.size + count
    · rw [(h'.old (by rw [h.size]; exact hnew)).2]
      exact h.kinds hs hnew
    · exact h'.kinds (by omega) (by omega)

/-- The instance scope of a class gets its receiver and is written down with the body. -/
theorem addInstance (h : t.Adds t' parent count) (body inside : ScopeId) (module : Option ModuleId) :
    t.Adds ((t'.addReceiver inside module).modifyScope body fun scope =>
      { scope with instanceScope := some inside }) parent count := by
  refine h.congr ?_ (fun s => ?_) fun s => ?_
  · simp [addReceiver, modifyScope]
  · rw [outerOf, map_scope?_modifyScope Scope.outer]
    · exact outerOf_enter _ _ _ _ _
    · exact fun _ => rfl
  · rw [kind?, map_scope?_modifyScope Scope.kind]
    · exact kind?_enter _ _ _ _ _
    · exact fun _ => rfl

/-- From the new scopes one sees them and what is seen from the one around them. -/
theorem chain (h : t.Adds t' parent count) (hs : t.scopes.size ≤ s)
    (hlt : s < t.scopes.size + count) (hr : r ∈ t'.chain s) :
    t.scopes.size ≤ r ∨ r ∈ t.chain parent := by
  rcases mem_cons.mp hr with rfl | hr
  · exact .inl hs
  · exact (h.outer hs hlt hr).imp_left And.left

variable (t : Symbols) (parent : ScopeId) (module : Option ModuleId)

theorem addScope (kind : ScopeKind) (hkind : kind ≠ .module) :
    t.Adds (t.addScope kind parent module).2 parent 1 where
  size := scopes_size_addScope t kind parent module
  old := fun hs => by
    rw [outerOf_addScope, if_neg (Nat.ne_of_lt hs), kind?_addScope, if_neg (Nat.ne_of_lt hs)]
    exact ⟨rfl, rfl⟩
  outer := fun {s r} hs hs' hr => by
    obtain rfl : s = t.scopes.size := by omega
    rw [outerOf_addScope, if_pos rfl] at hr
    exact .inr hr
  kinds := fun {s} hs hs' => by
    obtain rfl : s = t.scopes.size := by omega
    rw [kind?_addScope, if_pos rfl]
    exact fun h => hkind (Option.some.inj h)

theorem addFunctionScope (isArrow : Bool) :
    t.Adds (t.addFunctionScope parent isArrow module).2 parent 1 := by
  have h : t.Adds (t.addScope .function parent module).2 parent 1 :=
    addScope t parent module _ (by decide)
  cases isArrow with
  | true => exact h
  | false =>
    exact h.congr (scopes_size_enter _ _ _ _) (fun s => outerOf_enter _ _ _ _ _)
      fun s => kind?_enter _ _ _ _ _

theorem addClassScope (definition : NodeId) :
    t.Adds (t.addClassScope parent definition module).2 parent 2 := by
  have hbody : t.Adds (((t.addScope .classBody parent module).2.addVariable {
      name := receiverName
      form := .declared .classReceiver [definition] (some definition)
      module }).2.enter t.scopes.size receiverName t.vars.size) parent 1 :=
    (addScope t parent module .classBody (by decide)).congr (scopes_size_enter _ _ _ _)
      (fun s => outerOf_enter _ _ _ _ _) fun s => kind?_enter _ _ _ _ _
  have hboth := hbody.trans (addScope _ t.scopes.size module .classInstance (by decide))
    (Nat.le_refl _) (Nat.lt_succ_self _)
  exact hboth.addInstance _ _ _

end Symbols.Adds

theorem Symbols.hoistScope_addScope_block (ht : t.Nested) (hparent : parent < t.scopes.size)
    (module : Option ModuleId) :
    (t.addScope .block parent module).2.hoistScope t.scopes.size = t.scopes.size ∨
      (t.addScope .block parent module).2.hoistScope t.scopes.size = t.hoistScope parent := by
  have hkind : ∀ r ∈ t.chain parent, ((t.addScope .block parent module).2.kind? r != some .block) =
      (t.kind? r != some .block) := fun r hr => by
    rw [kind?_addScope, if_neg (Nat.ne_of_lt (Nat.lt_of_le_of_lt (ht.chain hr) hparent))]
  unfold hoistScope
  rw [chain_eq, outerOf_addScope, if_pos rfl, find?_cons_of_neg, find?_congr hkind]
  · cases (t.chain parent).find? fun r => t.kind? r != some .block with
    | none => exact .inl rfl
    | some r => exact .inr rfl
  · rw [kind?_addScope, if_pos rfl]
    decide

theorem Symbols.hoistScope_addFunctionScope (t : Symbols) (parent : ScopeId) (isArrow : Bool)
    (module : Option ModuleId) :
    (t.addFunctionScope parent isArrow module).2.hoistScope t.scopes.size = t.scopes.size := by
  have hkind : (t.addFunctionScope parent isArrow module).2.kind? t.scopes.size = some .function := by
    cases isArrow with
    | true => exact (t.kind?_addScope _ _ _ _).trans (if_pos rfl)
    | false => exact (kind?_enter _ _ _ _ _).trans ((t.kind?_addScope _ _ _ _).trans (if_pos rfl))
  unfold hoistScope
  rw [chain_eq, find?_cons_of_pos]
  · rfl
  · rw [hkind]
    decide


/-! ## What is read in one place -/

open Outline

/-- Some nodes were read, and the table grew meanwhile. Names are looked up and entered in the scopes
that were opened, or else in those that are seen and taken. A declaration that is `loose` may have no
scope. -/
structure Confined (sees takes : ScopeId → Prop) (loose : Prop) (t t' : Symbols)
    (ns : Multiset Node) : Prop where
  outer : ∀ {s r}, t.scopes.size ≤ s → r ∈ t'.outerOf s → t.scopes.size ≤ r ∨ sees r
  kinds : ∀ {s}, t.scopes.size ≤ s → t'.kind? s ≠ some .module
  reach : ∀ n ∈ ns, t'.Knows n ∧ ∀ s, t'.Reaches s n → t.scopes.size ≤ s ∨ sees s
  declared : ∀ {d v}, t'.Declares d v → t.Declares d v ∨
    (∃ s, t'.Holds s v ∧ (t.scopes.size ≤ s ∨ takes s)) ∨ loose

namespace Confined

variable {sees takes sees' takes' : ScopeId → Prop} {loose loose' : Prop} {t t₁ t₂ : Symbols}
  {ns ns₁ ns₂ : Multiset Node}

theorem of_scopes (h : t₁.scopes = t.scopes)
    (hdeclared : ∀ {d v}, t₁.Declares d v → t.Declares d v ∨
      (∃ s, t₁.Holds s v ∧ (t.scopes.size ≤ s ∨ takes s)) ∨ loose) :
    Confined sees takes loose t t₁ 0 where
  outer := fun {s r} hs hr => by
    rw [outerOf_of_le (h ▸ hs)] at hr
    cases hr
  kinds := fun hs => kind?_ne_of_le (h ▸ hs)
  reach := by simp
  declared := hdeclared

theorem refl (t : Symbols) : Confined sees takes loose t t 0 := of_scopes rfl .inl

theorem trans {declares' : NodeId → VarId → Prop} (h1 : Confined sees takes loose t t₁ ns₁)
    (h2 : Confined sees' takes' loose' t₁ t₂ ns₂) (hgrows : Entered module t t₁ declares)
    (hgrows' : Entered module t₁ t₂ declares') (hsees : ∀ s, sees' s → t.scopes.size ≤ s ∨ sees s)
    (htakes : ∀ s, takes' s → t.scopes.size ≤ s ∨ takes s) (hloose : loose' → loose) :
    Confined sees takes loose t t₂ (ns₁ + ns₂) where
  outer := fun {s r} hs hr => by
    by_cases hold : s < t₁.scopes.size
    · exact h1.outer hs (hgrows'.outerOf hold ▸ hr)
    · rcases h2.outer (Nat.not_lt.mp hold) hr with hr | hr
      · exact .inl (Nat.le_trans hgrows.scopes_size hr)
      · exact hsees r hr
  kinds := fun {s} hs => by
    by_cases hold : s < t₁.scopes.size
    · rw [hgrows'.kind? hold]
      exact h1.kinds hs
    · exact h2.kinds (Nat.not_lt.mp hold)
  reach := fun n hn => by
    rcases Multiset.mem_add.mp hn with hn | hn
    · obtain ⟨hknows, hreach⟩ := h1.reach n hn
      exact ⟨hgrows'.knows hknows, fun s hs => hreach s (hgrows'.reaches hknows hs)⟩
    · obtain ⟨hknows, hreach⟩ := h2.reach n hn
      refine ⟨hknows, fun s hs => ?_⟩
      rcases hreach s hs with hs | hs
      · exact .inl (Nat.le_trans hgrows.scopes_size hs)
      · exact hsees s hs
  declared := fun hd => by
    rcases h2.declared hd with hd | ⟨s, hs, hplace⟩ | hd
    · rcases h1.declared hd with hd | ⟨s, hs, hplace⟩ | hd
      · exact .inl hd
      · exact .inr (.inl ⟨s, hgrows'.held hs, hplace⟩)
      · exact .inr (.inr hd)
    · refine .inr (.inl ⟨s, hs, ?_⟩)
      rcases hplace with hs | hs
      · exact .inl (Nat.le_trans hgrows.scopes_size hs)
      · exact htakes s hs
    · exact .inr (.inr (hloose hd))

theorem mono (h : Confined sees takes loose t t₁ ns) (hsees : ∀ s, sees s → sees' s)
    (htakes : ∀ s, takes s → takes' s) (hloose : loose → loose') :
    Confined sees' takes' loose' t t₁ ns where
  outer := fun hs hr => (h.outer hs hr).imp_right (hsees _)
  kinds := h.kinds
  reach := fun n hn => ⟨(h.reach n hn).1, fun s hs => ((h.reach n hn).2 s hs).imp_right (hsees s)⟩
  declared := fun hd => (h.declared hd).imp_right fun hd =>
    hd.imp (fun ⟨s, hs, hplace⟩ => ⟨s, hs, hplace.imp_right (htakes s)⟩) hloose

theorem opens (h : t.Adds t₁ parent count) (hsees : ∀ s ∈ t.chain parent, sees s)
    (hdeclared : ∀ {d v}, t₁.Declares d v → t.Declares d v ∨
      ∃ s, t₁.Holds s v ∧ t.scopes.size ≤ s) : Confined sees takes loose t t₁ 0 where
  outer := fun {s r} hs hr => by
    by_cases hlt : s < t.scopes.size + count
    · exact (h.outer hs hlt hr).imp And.left (hsees r)
    · rw [outerOf_of_le (by rw [h.size]; omega)] at hr
      cases hr
  kinds := fun {s} hs => by
    by_cases hlt : s < t.scopes.size + count
    · exact h.kinds hs hlt
    · exact kind?_ne_of_le (by rw [h.size]; omega)
  reach := by simp
  declared := fun hd => (hdeclared hd).imp_right fun ⟨s, hs, hle⟩ => .inl ⟨s, hs, .inl hle⟩

theorem add (h : Confined sees takes loose t t₁ ns) (hname : ∀ b, n ≠ .binder b)
    (hscope : ∀ s, n.scope? = some s → s < t₁.scopes.size ∧ ∀ r ∈ t₁.chain s, sees r)
    (hbound : ∀ v, n.bound? = some v → v < t₁.vars.size) :
    Confined sees takes loose t t₁ (ns + {n}) where
  outer := h.outer
  kinds := h.kinds
  reach := fun m hm => by
    rcases Multiset.mem_add.mp hm with hm | hm
    · exact h.reach m hm
    · rw [Multiset.mem_singleton.mp hm]
      refine ⟨⟨fun s hs => (hscope s hs).1, hbound⟩, fun s hs => ?_⟩
      rcases hs with ⟨r, hr, hs⟩ | ⟨b, hb, -⟩
      · exact .inr ((hscope r hr).2 s hs)
      · exact absurd hb (hname b)
  declared := h.declared

/-- A name was declared. -/
theorem declare {b : Binder} {scope : ScopeId} {name : Bytes} {kind : VariableKind} {d : NodeId}
    (ht : t.Scoped) (hkind : kind ≠ .classReceiver) (hscope : scope < t.scopes.size)
    (hvar : b.var = (t.declare scope name kind d init module).1) (hsees : sees scope)
    (htakes : takes scope) :
    Confined sees takes loose t (t.declare scope name kind d init module).2.2
      (nodesOf nodes [.ofBinder b]) := by
  have hsize := t.scopes_size_declare module scope name kind d init
  have honly := ht.declare_onlyIn scope name kind d init module
  refine ⟨fun {s r} hs hr => ?_, fun hs => kind?_ne_of_le (hsize.symm ▸ hs),
    fun n hn => ?_, fun {e v} hd => ?_⟩
  · rw [outerOf_declare, outerOf_of_le hs] at hr
    cases hr
  · rw [Multiset.mem_singleton.mp hn]
    refine ⟨⟨fun r hr => (by cases hr), fun v hv => ?_⟩, fun s hs => .inr ?_⟩
    · cases hv
      rw [hvar]
      exact honly.1
    · rcases hs with ⟨r, hr, -⟩ | ⟨b', hb', hs⟩
      · cases hr
      · cases hb'
        rw [hvar] at hs
        rwa [honly.2 s hs]
  · -- Whatever is declared anew is the variable of this name.
    have hentered : Entered module t (t.declare scope name kind d init module).2.2
        fun _ u => u = (t.declare scope name kind d init module).1 := .declare hkind rfl
    rcases hentered.declares_or hd with hd | rfl
    · exact .inl hd
    · exact .inr (.inl ⟨scope, t.holds_declare module hscope name kind d init, .inr htakes⟩)

end Confined

/-- Some outlines were read behind others, with their nodes confined. -/
def ReadBehind (sees takes : ScopeId → Prop) (loose : Prop) (t t' : Symbols)
    (acc os : List Outline) : Prop :=
  ∃ ns, nodesOf nodes os = nodesOf nodes acc + ns ∧ Confined sees takes loose t t' ns

namespace ReadBehind

variable {sees takes sees' takes' : ScopeId → Prop} {loose loose' : Prop} {t t₁ t₂ : Symbols}
  {acc os os' : List Outline}

theorem of_confined (h : Confined sees takes loose t t₁ 0) :
    ReadBehind sees takes loose t t₁ acc acc := ⟨0, (add_zero _).symm, h⟩

theorem alone (h : ReadBehind sees takes loose t t₁ [] os) :
    Confined sees takes loose t t₁ (nodesOf nodes os) := by
  obtain ⟨ns, heq, hc⟩ := h
  rwa [heq, nodesOf_nil, zero_add]

theorem trans {declares' : NodeId → VarId → Prop} (h1 : ReadBehind sees takes loose t t₁ acc os)
    (h2 : ReadBehind sees' takes' loose' t₁ t₂ os os') (hgrows : Entered module t t₁ declares)
    (hgrows' : Entered module t₁ t₂ declares') (hsees : ∀ s, sees' s → t.scopes.size ≤ s ∨ sees s)
    (htakes : ∀ s, takes' s → t.scopes.size ≤ s ∨ takes s) (hloose : loose' → loose) :
    ReadBehind sees takes loose t t₂ acc os' := by
  obtain ⟨ns₁, heq₁, hc₁⟩ := h1
  obtain ⟨ns₂, heq₂, hc₂⟩ := h2
  exact ⟨ns₁ + ns₂, by rw [heq₂, heq₁, add_assoc], hc₁.trans hc₂ hgrows hgrows' hsees htakes hloose⟩

theorem behind (h : Confined sees takes loose t t₁ (nodesOf nodes os)) (acc : List Outline) :
    ReadBehind sees takes loose t t₁ acc (acc ++ os) := ⟨_, nodesOf_append _ acc os, h⟩

theorem perm (h : ReadBehind sees takes loose t t₁ acc os) (hp : os.Perm os') :
    ReadBehind sees takes loose t t₁ acc os' := by
  obtain ⟨ns, heq, hc⟩ := h
  exact ⟨ns, (hp.map nodes).sum_eq.symm.trans heq, hc⟩

theorem wrap (h : ReadBehind sees takes loose t t₁ acc os) (hname : ∀ b, n ≠ .binder b)
    (hscope : ∀ s, n.scope? = some s → s < t₁.scopes.size ∧ ∀ r ∈ t₁.chain s, sees r)
    (hbound : ∀ v, n.bound? = some v → v < t₁.vars.size) :
    ReadBehind sees takes loose t t₁ acc [.mk n os] := by
  obtain ⟨ns, heq, hc⟩ := h
  exact ⟨ns + {n}, by rw [nodesOf_mk, heq, add_comm, add_assoc], hc.add hname hscope hbound⟩

end ReadBehind

/-! ### Settings -/

/-- The scopes that can be seen from where a construct is read. -/
def Setting.Sees (s : ParserState) (scope : ScopeId) : Setting → Prop
  | expression | statement | item | inside => scope ∈ s.symbols.chain s.scope
  | declaring into => scope ∈ s.symbols.chain s.scope ∨ scope = into
  | members body inner => scope ∈ s.symbols.chain s.scope ∨ scope ∈ s.symbols.chain body ∨
      scope ∈ s.symbols.chain inner

/-- The scopes that names are entered into from where a construct is read. -/
def Setting.Takes (s : ParserState) (scope : ScopeId) : Setting → Prop
  | expression => False
  | statement | item | inside => scope = s.scope ∨ scope = s.symbols.hoistScope s.scope
  | declaring into => scope = into
  | members body _ => scope = body

def Setting.Fits (s : ParserState) : Setting → Prop
  | expression | statement | item | inside => True
  | declaring into => into < s.symbols.scopes.size
  | members body inner => body < s.symbols.scopes.size ∧ inner < s.symbols.scopes.size

/-- The table of a parser is in order, and declarations were made by nodes that have numbers. -/
structure ParserState.Fine (s : ParserState) : Prop where
  table : s.symbols.Scoped
  nested : s.symbols.Nested
  scope : s.scope < s.symbols.scopes.size
  declared : ∀ {d v}, s.symbols.Declares d v → d < s.nextNode

namespace ParserState

variable {s s' : ParserState}

theorem Fine.of_agrees (h : s.Agrees s') (hs : s.Fine) : s'.Fine := by
  refine ⟨?_, ?_, ?_, fun {d v} hd => ?_⟩
  · rw [h.symbols]; exact hs.table
  · rw [h.symbols]; exact hs.nested
  · rw [h.symbols, h.scope]; exact hs.scope
  · rw [h.symbols] at hd
    rw [h.nextNode]
    exact hs.declared hd

theorem Fine.chain_lt (hs : s.Fine) (hr : r ∈ s.symbols.chain s.scope) :
    r < s.symbols.scopes.size := Nat.lt_of_le_of_lt (hs.nested.chain hr) hs.scope

theorem Fine.move (hs : s.Fine) {scope : ScopeId} {k : NodeId}
    (h : scope < s.symbols.scopes.size) (hk : s.nextNode ≤ k) :
    ({ s with scope, nextNode := k } : ParserState).Fine :=
  ⟨hs.table, hs.nested, h, fun hd => Nat.lt_of_lt_of_le (hs.declared hd) hk⟩

theorem Fine.listing (hs : s.Fine) (lists : List (List NodeId)) :
    ({ s with returns := lists } : ParserState).Fine :=
  ⟨hs.table, hs.nested, hs.scope, hs.declared⟩

theorem Fine.opens (hs : s.Fine) {scope : ScopeId} (hadds : s.symbols.Adds t parent count)
    (hgrows : Entered module s.symbols t declares) (hparent : parent < s.symbols.scopes.size)
    (hscope : scope < s.symbols.scopes.size + count)
    (hdeclares : ∀ {d v}, declares d v → d < s.nextNode) :
    ({ s with symbols := t, scope } : ParserState).Fine where
  table := hgrows.keeps hs.table
  nested := fun σ r hr => by
    by_cases hold : σ < s.symbols.scopes.size
    · rw [(hadds.old hold).1] at hr
      exact hs.nested σ r hr
    · by_cases hlt : σ < s.symbols.scopes.size + count
      · rcases hadds.outer (Nat.not_lt.mp hold) hlt hr with ⟨-, hr⟩ | hr
        · exact hr
        · have hle := hs.nested.chain hr
          exact Nat.lt_of_le_of_lt hle (Nat.lt_of_lt_of_le hparent (Nat.not_lt.mp hold))
      · rw [outerOf_of_le (by rw [hadds.size]; exact Nat.not_lt.mp hlt)] at hr
        cases hr
  scope := by
    rw [hadds.size]
    exact hscope
  declared := fun hd => (hgrows.declares_or hd).elim hs.declared hdeclares

theorem Fine.declare (hs : s.Fine) {scope : ScopeId} {name : Bytes} {kind : VariableKind}
    (hkind : kind ≠ .classReceiver) :
    ({ s with
      nextNode := s.nextNode + 1
      symbols := (s.symbols.declare scope name kind s.nextNode init module).2.2 } :
        ParserState).Fine := by
  have hgrows : Entered module s.symbols
      (s.symbols.declare scope name kind s.nextNode init module).2.2 fun d _ => d = s.nextNode :=
    .declare hkind rfl
  refine ⟨hgrows.keeps hs.table, fun σ r hr => ?_, ?_, fun {d v} hd => ?_⟩
  · rw [outerOf_declare] at hr
    exact hs.nested σ r hr
  · exact Nat.lt_of_lt_of_le hs.scope hgrows.scopes_size
  · rcases hgrows.declares_or hd with hd | rfl
    · exact Nat.lt_succ_of_lt (hs.declared hd)
    · exact Nat.lt_succ_self _

theorem Fine.vary (hs : s.Fine) (hgrows : Entered module s.symbols t declares)
    (hscopes : t.scopes = s.symbols.scopes) (hdeclares : ∀ {d v}, declares d v → d < s.nextNode) :
    ({ s with symbols := t } : ParserState).Fine where
  table := hgrows.keeps hs.table
  nested := fun σ r hr => by
    rw [Symbols.outerOf, scope?, hscopes] at hr
    exact hs.nested σ r hr
  scope := Nat.lt_of_lt_of_le hs.scope hgrows.scopes_size
  declared := fun hd => (hgrows.declares_or hd).elim hs.declared hdeclares

end ParserState

namespace Setting

variable {setting : Setting} {s s' : ParserState} {module : Option ModuleId}
  {declares : NodeId → VarId → Prop}

theorem Sees.lt (hs : s.Fine) (hfits : setting.Fits s) (hr : setting.Sees s r) :
    r < s.symbols.scopes.size := by
  have hchain := fun {r} => hs.chain_lt (r := r)
  cases setting with
  | expression | statement | item | inside => exact hchain hr
  | declaring into =>
    rcases hr with hr | rfl
    · exact hchain hr
    · exact hfits
  | members body inner =>
    rcases hr with hr | hr | hr
    · exact hchain hr
    · exact Nat.lt_of_le_of_lt (hs.nested.chain hr) hfits.1
    · exact Nat.lt_of_le_of_lt (hs.nested.chain hr) hfits.2

theorem Fits.grow (h : setting.Fits s) (hgrows : Entered module s.symbols s'.symbols declares) :
    setting.Fits s' := by
  have hsize := hgrows.scopes_size
  cases setting with
  | expression | statement | item | inside => trivial
  | declaring into => exact Nat.lt_of_lt_of_le h hsize
  | members body inner =>
    exact ⟨Nat.lt_of_lt_of_le h.1 hsize, Nat.lt_of_lt_of_le h.2 hsize⟩

theorem Sees.back (hs : s.Fine) (hfits : setting.Fits s)
    (hgrows : Entered module s.symbols s'.symbols declares) (hscope : s'.scope = s.scope)
    (hr : setting.Sees s' r) : setting.Sees s r := by
  cases setting with
  | expression | statement | item | inside | declaring into =>
    rwa [Sees, hscope, hgrows.chain hs.scope] at hr
  | members body inner =>
    rwa [Sees, hscope, hgrows.chain hs.scope, hgrows.chain hfits.1, hgrows.chain hfits.2] at hr

theorem Takes.back (hs : s.Fine) (hgrows : Entered module s.symbols s'.symbols declares)
    (hscope : s'.scope = s.scope) (hr : setting.Takes s' r) : setting.Takes s r := by
  cases setting with
  | expression => exact hr
  | statement | item | inside => rwa [Takes, hscope, hgrows.hoistScope hs.nested hs.scope] at hr
  | declaring into | members body inner => exact hr

theorem sees_scope (setting : Setting) (hr : r ∈ s.symbols.chain s.scope) : setting.Sees s r := by
  cases setting with
  | expression | statement | item | inside => exact hr
  | declaring into | members body inner => exact .inl hr

theorem Admits.sees {scope : ScopeId} (h : setting.Admits s scope) :
    setting.Takes s scope ∧ setting.Sees s scope := by
  cases setting with
  | statement | inside =>
    refine ⟨h, ?_⟩
    rcases h with rfl | rfl
    · exact mem_cons_self
    · exact s.symbols.hoistScope_mem_chain s.scope
  | members body inner =>
    cases h
    exact ⟨rfl, .inr (.inl mem_cons_self)⟩
  | expression | item | declaring into => exact h.elim

end Setting

/-! ### The scopes of a class -/

section

variable {s : ParserState} {parent : ScopeId} {definition : NodeId} (hs : s.Fine)
  (hparent : s.scope = parent) (module : Option ModuleId)
include hs hparent

theorem ParserState.Fine.classScope (hdefinition : definition < s.nextNode) :
    ({ s with symbols := (s.symbols.addClassScope parent definition module).2 } : ParserState).Fine ∧
      (members s.symbols.scopes.size (s.symbols.scopes.size + 1)).Fits
        { s with symbols := (s.symbols.addClassScope parent definition module).2 } := by
  have hadds := Symbols.Adds.addClassScope s.symbols parent module definition
  have hgrows : Entered module s.symbols (s.symbols.addClassScope parent definition module).2
      fun d _ => d = definition := .addClassScope _ rfl
  refine ⟨hs.opens hadds hgrows (hparent ▸ hs.scope) (Nat.lt_add_right 2 hs.scope)
    fun hd => by rw [hd]; exact hdefinition, ?_⟩
  show _ < Array.size _ ∧ _ < Array.size _
  rw [hadds.size]
  omega

/-- From among the members of a class, its scopes are seen and those around it. -/
theorem Setting.Sees.members
    (hr : (members s.symbols.scopes.size (s.symbols.scopes.size + 1)).Sees
      { s with symbols := (s.symbols.addClassScope parent definition module).2 } r) :
    s.symbols.scopes.size ≤ r ∨ r ∈ s.symbols.chain parent := by
  have hadds := Symbols.Adds.addClassScope s.symbols parent module definition
  have hgrows : Entered module s.symbols (s.symbols.addClassScope parent definition module).2
      fun _ _ => True := .addClassScope _ trivial
  rcases hr with hr | hr | hr
  · refine .inr ?_
    rw [← hparent, ← hgrows.chain hs.scope]
    exact hr
  · exact hadds.chain (Nat.le_refl _) (Nat.lt_add_of_pos_right Nat.two_pos) hr
  · exact hadds.chain (Nat.le_succ _) (Nat.lt_succ_self _) hr

/-- What is read among the members of a class is confined to its scopes and those around it. -/
theorem Confined.members {loose : Prop}
    (hc : Confined ((members s.symbols.scopes.size (s.symbols.scopes.size + 1)).Sees
        { s with symbols := (s.symbols.addClassScope parent definition module).2 } ·)
      ((members s.symbols.scopes.size (s.symbols.scopes.size + 1)).Takes
        { s with symbols := (s.symbols.addClassScope parent definition module).2 } ·) loose
      (s.symbols.addClassScope parent definition module).2 t' ns)
    (hgrows : Entered module (s.symbols.addClassScope parent definition module).2 t' declares) :
    Confined (· ∈ s.symbols.chain parent) (fun _ => False) loose s.symbols t' ns := by
  have hopened : Entered module s.symbols (s.symbols.addClassScope parent definition module).2
      fun _ v => v = s.symbols.vars.size := .addClassScope _ rfl
  have hopens : Confined (· ∈ s.symbols.chain parent) (fun _ => False) loose s.symbols
      (s.symbols.addClassScope parent definition module).2 0 := by
    refine .opens (.addClassScope _ _ _ definition) (fun r hr => hr) fun hd =>
      (hopened.declares_or hd).imp_right ?_
    rintro rfl
    exact ⟨_, s.symbols.holds_addClassScope parent module definition, Nat.le_refl _⟩
  have hboth := hopens.trans hc hopened hgrows (fun r hr => hr.members hs hparent module)
    (fun r hr => .inl (Nat.le_of_eq hr.symm)) id
  rwa [zero_add] at hboth

end

namespace Builds

variable {o : ModuleText} {setting : Setting} {s s' : ParserState} {acc os : List Outline}

/-- A parser gives out numbers from the next one on, and makes declarations by nodes with these. -/
theorem numbers (h : Builds o setting s acc s' os) : s.nextNode ≤ s'.nextNode ∧
    Entered o.module s.symbols s'.symbols (fun d _ => s.nextNode ≤ d ∧ d < s'.nextNode) ∧
    ∀ n ∈ nodesOf Outline.nodes os, n ∈ nodesOf Outline.nodes acc ∨
      s.nextNode ≤ n.id ∧ n.id < s'.nextNode := by
  obtain ⟨ns, heq, hmade⟩ := h.made
  have hid : ∀ n ∈ ns, s.nextNode ≤ n.id ∧ n.id < s'.nextNode := by
    intro n hn
    have hmem := Multiset.mem_map_of_mem Node.id hn
    rw [hmade.ids, Multiset.mem_coe, mem_range'_1] at hmem
    rwa [hmade.next]
  refine ⟨?_, hmade.entered.mono fun d v hd => ?_, fun n hn => ?_⟩
  · rw [hmade.next]
    exact Nat.le_add_right _ _
  · rcases hd with hd | ⟨n, hn, rfl, -⟩
    · exact hd.elim
    · exact hid n hn
  · rw [heq] at hn
    exact (Multiset.mem_add.mp hn).imp_right (hid n)

end Builds

/-! ## Sealed parts -/

/-- Some nodes declare variables of some scopes, and no others reach these scopes. -/
structure Seal (t : Symbols) (S : Set ScopeId) (inside all : Set Node) : Prop where
  lt : ∀ s ∈ S, s < t.scopes.size
  kinds : ∀ s ∈ S, t.kind? s ≠ some .module
  declared : ∀ n ∈ inside, ∀ v, t.Declares n.id v → ∃ s ∈ S, t.Holds s v
  reach : ∀ n ∈ all, ∀ s ∈ S, t.Reaches s n → n ∈ inside

/-- A seal holds while the table grows, if its nodes make no more declarations and no new ones reach
its scopes. -/
theorem Seal.grow {S : Set ScopeId} {inside all all' : Set Node} (h : Seal t S inside all)
    (hgrows : Entered module t t' declares) (hknown : ∀ n ∈ all, t.Knows n)
    (hfresh : ∀ n ∈ inside, ∀ v, ¬ declares n.id v)
    (hnew : ∀ n ∈ all', n ∈ all ∨ ∀ s ∈ S, ¬ t'.Reaches s n) : Seal t' S inside all' where
  lt := fun s hs => Nat.lt_of_lt_of_le (h.lt s hs) hgrows.scopes_size
  kinds := fun s hs => by
    rw [hgrows.kind? (h.lt s hs)]
    exact h.kinds s hs
  declared := fun n hn v hd => by
    have hold := (hgrows.declares_or hd).resolve_right (hfresh n hn v)
    obtain ⟨s, hs, hholds⟩ := h.declared n hn v hold
    exact ⟨s, hs, hgrows.held hholds⟩
  reach := fun n hn s hs hreach => by
    rcases hnew n hn with hn | hn
    · exact h.reach n hn s hs (hgrows.reaches (hknown n hn) hreach)
    · exact absurd hreach (hn s hs)

namespace Outline

def nodeSet (os : List Outline) : Set Node := { n | n ∈ nodesOf nodes os }

/-- A part of an expression somewhere in some outlines. Functions and classes have no parts. -/
inductive Part (k : Outline) : List Outline → Prop
  | child {n ks os} : mk n ks ∈ os → n.isExpr = true → n.isSimple = true → k ∈ ks → Part k os
  | inner {n ks os} : mk n ks ∈ os → Part k ks → Part k os

theorem mem_nodeSet_append : n ∈ nodeSet (os ++ os') ↔ n ∈ nodeSet os ∨ n ∈ nodeSet os' := by
  simp [nodeSet]

theorem mem_nodeSet_mk {m : Node} : m ∈ nodeSet [mk n os] ↔ m = n ∨ m ∈ nodeSet os := by
  simp [nodeSet, nodes_mk]

theorem nodeSet_nil : nodeSet [] = ∅ := by simp [nodeSet]

theorem mem_nodeSet_of_mem (hk : k ∈ os) (hn : n ∈ nodeSet [k]) : n ∈ nodeSet os := by
  obtain ⟨before, after, rfl⟩ := append_of_mem hk
  exact mem_nodeSet_append.mpr (.inr (mem_nodeSet_append.mpr (.inl hn)))

theorem Part.mono (h : Part k os) (hsub : os ⊆ os') : Part k os' := by
  cases h with
  | child hmem hexpr hsimple hk => exact .child (hsub hmem) hexpr hsimple hk
  | inner hmem hk => exact .inner (hsub hmem) hk

theorem not_part_nil : ¬ Part k [] := by
  rintro (⟨hmem, -⟩ | ⟨hmem, -⟩) <;> cases hmem

theorem part_append (h : Part k (os ++ os')) : Part k os ∨ Part k os' := by
  cases h with
  | child hmem hexpr hsimple hk =>
    exact (mem_append.mp hmem).imp (.child · hexpr hsimple hk) (.child · hexpr hsimple hk)
  | inner hmem hk => exact (mem_append.mp hmem).imp (.inner · hk) (.inner · hk)

theorem part_mk (h : Part k [mk n os]) :
    n.isExpr = true ∧ n.isSimple = true ∧ k ∈ os ∨ Part k os := by
  cases h with
  | child hmem hexpr hsimple hk =>
    cases mem_singleton.mp hmem
    exact .inl ⟨hexpr, hsimple, hk⟩
  | inner hmem hk =>
    cases mem_singleton.mp hmem
    exact .inr hk

theorem Part.subset (h : Part k os) (hn : n ∈ nodeSet [k]) : n ∈ nodeSet os := by
  induction h with
  | child hmem _ _ hk =>
    exact mem_nodeSet_of_mem hmem (mem_nodeSet_mk.mpr (.inr (mem_nodeSet_of_mem hk hn)))
  | inner hmem _ ih => exact mem_nodeSet_of_mem hmem (mem_nodeSet_mk.mpr (.inr ih))

end Outline

open Outline

/-- Some outlines were read from a number of scopes on, and the parts of their expressions are sealed
by scopes from there on. Where they are expressions themselves (`top`), so is each of them. -/
structure Laid (lo : Nat) (top : Prop) (t : Symbols) (next : NodeId) (os : List Outline) : Prop where
  le : lo ≤ t.scopes.size
  known : ∀ n ∈ nodeSet os, t.Knows n ∧ n.id < next
  kinds : ∀ {s}, lo ≤ s → t.kind? s ≠ some .module
  parts : ∀ k, Part k os ∨ top ∧ k ∈ os →
    ∃ S, (∀ s ∈ S, lo ≤ s) ∧ Seal t S (nodeSet [k]) (nodeSet os)
  placed : top → ∀ n ∈ nodeSet os, ∀ v, t.Declares n.id v → ∃ s, lo ≤ s ∧ t.Holds s v

namespace Laid

variable {lo lo' : Nat} {top top' : Prop} {t t' : Symbols} {next next' : NodeId}
  {acc os os' : List Outline}

theorem nil (t : Symbols) (next : NodeId) : Laid t.scopes.size top t next [] where
  le := Nat.le_refl _
  known := by simp [nodeSet_nil]
  kinds := kind?_ne_of_le
  parts := by simp [not_part_nil]
  placed := by simp [nodeSet_nil]

theorem later (h : Laid lo top t next os) (hnext : next ≤ next') (htop : top' → top) :
    Laid lo top' t next' os :=
  ⟨h.le, fun n hn => ⟨(h.known n hn).1, Nat.lt_of_lt_of_le (h.known n hn).2 hnext⟩, h.kinds,
    fun k hk => h.parts k (hk.imp_right fun hk => ⟨htop hk.1, hk.2⟩),
    fun htop' => h.placed (htop htop')⟩

theorem perm (h : Laid lo top t next os) (hp : os.Perm os') : Laid lo top t next os' := by
  have hset : nodeSet os' = nodeSet os := by
    have hsum : nodesOf nodes os' = nodesOf nodes os := (hp.map nodes).sum_eq.symm
    simp [nodeSet, hsum]
  refine ⟨h.le, hset ▸ h.known, h.kinds, fun k hk => ?_, hset ▸ h.placed⟩
  rw [hset]
  exact h.parts k (hk.imp (·.mono hp.symm.subset) fun hk => ⟨hk.1, hp.symm.subset hk.2⟩)

/-- More was read behind some outlines. -/
theorem append {sees takes : ScopeId → Prop} {loose : Prop} (h : Laid lo top t next acc)
    (h' : Laid lo' top t' next' os) (hlo : t.scopes.size ≤ lo') (ht : t.Nested)
    (hgrows : Entered module t t' declares) (hnext : next ≤ next')
    (hfresh : ∀ n ∈ nodeSet acc, ∀ v, ¬ declares n.id v) (hc : Confined sees takes loose t t' ns)
    (hos : ∀ n ∈ nodeSet os, n ∈ ns) (hsees : ∀ s, sees s → s < lo) :
    Laid lo top t' next' (acc ++ os) where
  le := Nat.le_trans h.le hgrows.scopes_size
  known := fun n hn => by
    rcases mem_nodeSet_append.mp hn with hn | hn
    · exact ⟨hgrows.knows (h.known n hn).1, Nat.lt_of_lt_of_le (h.known n hn).2 hnext⟩
    · exact h'.known n hn
  kinds := fun {s} hs => by
    by_cases hold : s < t.scopes.size
    · rw [hgrows.kind? hold]
      exact h.kinds hs
    · exact hc.kinds (Nat.not_lt.mp hold)
  parts := fun k hk => by
    have hcases : (Part k acc ∨ top ∧ k ∈ acc) ∨ (Part k os ∨ top ∧ k ∈ os) := by
      rcases hk with hk | ⟨htop, hk⟩
      · exact (part_append hk).imp .inl .inl
      · exact (mem_append.mp hk).imp (.inr ⟨htop, ·⟩) (.inr ⟨htop, ·⟩)
    rcases hcases with hk | hk
    · -- What is new looks at new scopes, or at scopes from before all of this.
      obtain ⟨S, hS, hseal⟩ := h.parts k hk
      have hinside : ∀ n ∈ nodeSet [k], n ∈ nodeSet acc := fun n hn =>
        hk.elim (·.subset hn) fun hk => mem_nodeSet_of_mem hk.2 hn
      refine ⟨S, hS, hseal.grow hgrows (fun n hn => (h.known n hn).1)
        (fun n hn => hfresh n (hinside n hn)) fun n hn => ?_⟩
      refine (mem_nodeSet_append.mp hn).imp_right fun hn s hs hreach => ?_
      rcases (hc.reach n (hos n hn)).2 s hreach with hle | hseen
      · exact absurd (hseal.lt s hs) (Nat.not_lt.mpr hle)
      · exact absurd (hsees s hseen) (Nat.not_lt.mpr (hS s hs))
    · -- What was there looks at scopes that were there.
      obtain ⟨S, hS, hseal⟩ := h'.parts k hk
      refine ⟨S, fun s hs => h.le.trans (hlo.trans (hS s hs)), hseal.lt, hseal.kinds,
        hseal.declared, fun n hn s hs hreach => ?_⟩
      rcases mem_nodeSet_append.mp hn with hn | hn
      · have hknown := (h.known n hn).1
        have hlt := (hgrows.reaches hknown hreach).lt ht hknown
        exact absurd (hlo.trans (hS s hs)) (Nat.not_le.mpr hlt)
      · exact hseal.reach n hn s hs hreach
  placed := fun htop n hn v hd => by
    rcases mem_nodeSet_append.mp hn with hn | hn
    · have hold := (hgrows.declares_or hd).resolve_right (hfresh n hn v)
      obtain ⟨s, hs, hholds⟩ := h.placed htop n hn v hold
      exact ⟨s, hs, hgrows.held hholds⟩
    · obtain ⟨s, hs, hholds⟩ := h'.placed htop n hn v hd
      exact ⟨s, h.le.trans (hlo.trans hs), hholds⟩

theorem wrap (h : Laid lo top t next os) (hnext : next ≤ next')
    (htop : n.isExpr = true → n.isSimple = true → top) (hknown : t.Knows n ∧ n.id < next')
    (hreach : ∀ s, t.Reaches s n → s < lo)
    (hplaced : top' → ∀ m ∈ nodeSet [.mk n os], ∀ v, t.Declares m.id v →
      ∃ s, lo ≤ s ∧ t.Holds s v) : Laid lo top' t next' [.mk n os] where
  le := h.le
  known := fun m hm => by
    rcases mem_nodeSet_mk.mp hm with rfl | hm
    · exact hknown
    · exact ⟨(h.known m hm).1, Nat.lt_of_lt_of_le (h.known m hm).2 hnext⟩
  kinds := h.kinds
  parts := fun k hk => by
    rcases hk with hk | ⟨htop', hk⟩
    · have hbelow : Part k os ∨ top ∧ k ∈ os :=
        (part_mk hk).symm.imp_right fun ⟨hexpr, hsimple, hk⟩ => ⟨htop hexpr hsimple, hk⟩
      obtain ⟨S, hS, hseal⟩ := h.parts k hbelow
      refine ⟨S, hS, hseal.lt, hseal.kinds, hseal.declared, fun m hm s hs hm' => ?_⟩
      rcases mem_nodeSet_mk.mp hm with rfl | hm
      · exact absurd (hS s hs) (Nat.not_le.mpr (hreach s hm'))
      · exact hseal.reach m hm s hs hm'
    · -- The whole is sealed by all scopes from the first on.
      cases mem_singleton.mp hk
      refine ⟨Set.Ico lo t.scopes.size, fun s hs => hs.1, fun s hs => hs.2,
        fun s hs => h.kinds hs.1, fun m hm v hd => ?_, fun m hm s _ _ => hm⟩
      obtain ⟨s, hs, hholds⟩ := hplaced htop' m hm v hd
      exact ⟨s, ⟨hs, hholds.lt⟩, hholds⟩
  placed := hplaced

theorem of_leaves (hle : lo ≤ t.scopes.size) (hkinds : ∀ {s}, lo ≤ s → t.kind? s ≠ some .module)
    (hknown : ∀ n ∈ nodeSet os, t.Knows n ∧ n.id < next) (hparts : ∀ k, ¬ Part k os) :
    Laid lo False t next os :=
  ⟨hle, hknown, hkinds, fun k hk => absurd (hk.resolve_right fun h => h.1) (hparts k),
    False.elim⟩

end Laid

theorem Outline.not_part_ofBinder {b : Binder} : ¬ Part k [.ofBinder b] := by
  intro h
  rcases part_mk h with ⟨hexpr, -⟩ | h
  · cases hexpr
  · exact not_part_nil h

theorem Outline.not_part_name {name : Option Binder} : ¬ Part k (name.toList.map .ofBinder) := by
  cases name with
  | none => exact not_part_nil
  | some b => exact not_part_ofBinder

/-- What was read in a setting is confined to it, and the parts of its expressions are sealed. -/
structure Reading (setting : Setting) (s : ParserState) (acc : List Outline) (s' : ParserState)
    (os : List Outline) : Prop where
  fine : s'.Fine
  confined : ReadBehind (setting.Sees s ·) (setting.Takes s ·) (setting = .item) s.symbols
    s'.symbols acc os
  laid : ∀ {lo}, Laid lo (setting = .expression) s.symbols s.nextNode acc →
    (∀ r, setting.Sees s r → r < lo) → Laid lo (setting = .expression) s'.symbols s'.nextNode os

/-- What is read so wherever the setting fits. -/
def Legible (setting : Setting) (s : ParserState) (acc : List Outline) (s' : ParserState)
    (os : List Outline) : Prop :=
  s.Fine → setting.Fits s → Reading setting s acc s' os

namespace Builds

variable {o : ModuleText} {setting inner : Setting} {s s' s₁ s₂ s₃ : ParserState}
  {acc os : List Outline}
  {top loose : Prop} {lo lo' : Nat} {sees takes : ScopeId → Prop}

theorem known (h : Builds o setting s [] s' os)
    (hc : Confined sees takes loose s.symbols s'.symbols (nodesOf nodes os)) (hn : n ∈ nodeSet os) :
    s'.symbols.Knows n ∧ s.nextNode ≤ n.id ∧ n.id < s'.nextNode :=
  ⟨(hc.reach n hn).1, (h.numbers.2.2 n hn).resolve_left (Multiset.notMem_zero n)⟩

theorem laid_append (h : Builds o setting s [] s₁ os) (hs : s.Fine)
    (hc : Confined sees takes loose s.symbols s₁.symbols (nodesOf nodes os))
    (hacc : Laid lo top s.symbols s.nextNode acc)
    (hos : Laid s.symbols.scopes.size top s₁.symbols s₁.nextNode os) (hsees : ∀ r, sees r → r < lo) :
    Laid lo top s₁.symbols s₁.nextNode (acc ++ os) := by
  obtain ⟨hnext, hgrows, -⟩ := h.numbers
  refine hacc.append hos (Nat.le_refl _) hs.nested hgrows hnext (fun n hn v hd => ?_) hc
    (fun _ => id) hsees
  exact absurd (hacc.known n hn).2 (Nat.not_lt.mpr hd.1)

theorem laid_leaves (h : Builds o setting s [] s₁ os)
    (hc : Confined sees takes loose s.symbols s₁.symbols (nodesOf nodes os)) (hparts : ∀ k, ¬ Part k os) :
    Laid s.symbols.scopes.size False s₁.symbols s₁.nextNode os :=
  .of_leaves h.numbers.2.1.scopes_size hc.kinds
    (fun _ hn => ⟨(h.known hc hn).1, (h.known hc hn).2.2⟩) hparts

/-- What was read apart stands behind what was read before. -/
theorem behind (h : Builds o inner s [] s' os) (hr : Reading inner s [] s' os) (hs : s.Fine)
    (hfits : inner.Fits s) (hsees : ∀ r, inner.Sees s r → setting.Sees s r)
    (htakes : ∀ r, inner.Takes s r → setting.Takes s r) (hitem : inner = .item → setting = .item)
    (htop : setting = .expression → inner = .expression) : Reading setting s acc s' (acc ++ os) where
  fine := hr.fine
  confined := .behind (hr.confined.alone.mono hsees htakes hitem) acc
  laid := fun hacc hlt => by
    have hos := hr.laid (.nil _ _) fun r hr => hr.lt hs hfits
    exact h.laid_append hs hr.confined.alone hacc (hos.later (Nat.le_refl _) htop) fun r hr =>
      hlt r (hsees r hr)

/-- A name was declared in front of what was read before. -/
theorem declared {scope : ScopeId} {b : Binder}
    (h : Builds o (.declaring scope) s [] s' [.ofBinder b])
    (hc : Confined ((Setting.declaring scope).Sees s ·) ((Setting.declaring scope).Takes s ·)
      (Setting.declaring scope = .item) s.symbols s'.symbols (nodesOf nodes [.ofBinder b]))
    (hs : s.Fine) (hfine : s'.Fine) :
    Reading (.declaring scope) s acc s' (.ofBinder b :: acc) := by
  have hp := perm_append_singleton (Outline.ofBinder b) acc
  refine ⟨hfine, (ReadBehind.behind hc acc).perm hp, fun hacc hsees => ?_⟩
  have hos := h.laid_leaves hc fun _ => not_part_ofBinder
  exact (h.laid_append hs hc hacc (hos.later (Nat.le_refl _) nofun) hsees).perm hp

/-- A node was read that is no part of an expression itself, with outlines below it that were read
further inside. -/
theorem whole (h : Builds o setting s [] s' [.mk n os]) (hs : s.Fine) (hfits : setting.Fits s)
    (hfine : s'.Fine) (hread : ReadBehind (setting.Sees s ·) (setting.Takes s ·)
      (setting = .item) s.symbols s'.symbols [] [.mk n os])
    (hos : Laid lo' False s'.symbols s'.nextNode os) (hlo : s.symbols.scopes.size ≤ lo')
    (hsimple : n.isExpr = true → n.isSimple = false) (hscope : n.scope? = none)
    (hname : ∀ b, n ≠ .binder b) : Reading setting s [] s' [.mk n os] := by
  have hc := hread.alone
  refine ⟨hfine, hread, fun hacc hsees => h.laid_append hs hc hacc ?_ hsees⟩
  obtain ⟨hnext, hgrows, -⟩ := h.numbers
  have hbelow : Laid s.symbols.scopes.size False s'.symbols s'.nextNode ([] ++ os) :=
    (Laid.nil s.symbols s.nextNode).append hos hlo hs.nested hgrows hnext
      (by simp [nodeSet_nil]) hc (fun m hm => mem_nodeSet_mk.mpr (.inr hm)) fun r hr => hr.lt hs hfits
  have hn := h.known hc (mem_nodeSet_mk.mpr (.inl rfl))
  refine hbelow.wrap (Nat.le_refl _) (fun hexpr h => ?_) ⟨hn.1, hn.2.2⟩ (fun r hr => ?_) ?_
  · rw [hsimple hexpr] at h
    cases h
  · rcases hr with ⟨q, hq, -⟩ | ⟨b, hb, -⟩
    · rw [hscope] at hq
      cases hq
    · exact absurd hb (hname b)
  · -- An expression takes no names into the scopes around it.
    rintro rfl m hm v hd
    rcases hc.declared hd with hold | ⟨r, hr, hplace⟩ | hitem
    · exact absurd (hs.declared hold) (Nat.not_lt.mpr (h.known hc hm).2.1)
    · exact ⟨r, hplace.resolve_right id, hr⟩
    · cases hitem

theorem classDef_reading {c : ClassDef} {front members : List Outline} (name : Option Binder)
    (hid : c.info.id = s.nextNode)
    (hkind : c.isDeclaration = true → ∃ base, front = c.name?.toList.map .ofBinder ++ base)
    (h1 : Builds o setting { s with nextNode := s.nextNode + 1 } [] s₁ front)
    (h2 : Builds o (.members s₁.symbols.scopes.size (s₁.symbols.scopes.size + 1))
      { s₁ with symbols := (s₁.symbols.addClassScope s.scope s.nextNode o.module).2 } [] s₂
      (name.toList.map .ofBinder))
    (h3 : Builds o (.members s₁.symbols.scopes.size (s₁.symbols.scopes.size + 1)) s₂ [] s₃ members)
    (hs : s.Fine) (hfits : setting.Fits s)
    (ih1 : Legible setting { s with nextNode := s.nextNode + 1 } [] s₁ front)
    (ih2 : Legible (.members s₁.symbols.scopes.size (s₁.symbols.scopes.size + 1))
      { s₁ with symbols := (s₁.symbols.addClassScope s.scope s.nextNode o.module).2 } [] s₂
      (name.toList.map .ofBinder))
    (ih3 : Legible (.members s₁.symbols.scopes.size (s₁.symbols.scopes.size + 1)) s₂ [] s₃ members) :
    Reading setting s [] s₃
      [.mk (.expr (.classDef c)) (name.toList.map .ofBinder ++ front ++ members)] := by
  have hs0 := hs.move hs.scope (Nat.le_succ s.nextNode)
  obtain ⟨hs1, hc1, hlaid1⟩ := ih1 hs0 hfits
  obtain ⟨hnext, hgrows1, -⟩ := h1.numbers
  obtain ⟨hopened, hinside⟩ := hs1.classScope h1.scope o.module hnext
  obtain ⟨hs2, hc2, -⟩ := ih2 hopened hinside
  obtain ⟨hnext2, hgrows₂, -⟩ := h2.numbers
  have hinside2 := hinside.grow hgrows₂
  obtain ⟨hs3, hc3, hlaid3⟩ := ih3 hs2 hinside2
  obtain ⟨hnext3, hgrows₃, -⟩ := h3.numbers
  have hgrows : Entered o.module s₁.symbols
      (s₁.symbols.addClassScope s.scope s.nextNode o.module).2
      fun d _ => d = s.nextNode ∨ s₁.nextNode ≤ d := .addClassScope _ (.inl rfl)
  have hgrowth := hgrows.trans ((hgrows₂.mono fun d _ hd => .inr hd.1).trans
    (hgrows₃.mono fun d _ hd => .inr (hnext2.trans hd.1)))
  -- The name of the class and its members, which are read in the scopes of the class.
  have hbody := h3.laid_append hs2 hc3.alone (h2.laid_leaves hc2.alone fun _ => not_part_name)
    ((hlaid3 (.nil _ _) fun r hr => hr.lt hs2 hinside2).later (Nat.le_refl _) False.elim)
    fun r hr => (hr.back hopened hinside hgrows₂ h2.scope).lt hopened hinside
  have hc := (hc2.trans (.behind hc3.alone _) hgrows₂ hgrows₃
    (fun r hr => .inr (hr.back hopened hinside hgrows₂ h2.scope))
    (fun r hr => .inr (hr.back hopened hgrows₂ h2.scope)) id).alone.members hs1 h1.scope o.module
      (hgrows₂.grows.trans hgrows₃.grows)
  -- What stands before the body was read in the setting of the class.
  have hfront := hlaid1 (.nil _ _) fun r hr => hr.lt hs0 hfits
  have hall : Laid s.symbols.scopes.size False s₃.symbols s₃.nextNode
      (front ++ (name.toList.map .ofBinder ++ members)) := by
    refine (hfront.later (Nat.le_refl _) False.elim).append hbody hgrows.scopes_size hs1.nested
      hgrowth (hnext2.trans hnext3) (fun n hn v hd => ?_) hc (fun _ => id) fun r hr => ?_
    · obtain ⟨-, hle, hlt⟩ := h1.known hc1.alone hn
      rcases hd with hd | hd
      · exact Nat.lt_irrefl _ (hd ▸ hle)
      · exact absurd hlt (Nat.not_lt.mpr hd)
    · rw [hgrows1.chain hs.scope] at hr
      exact hs.chain_lt hr
  have hboth := hc1.trans (.behind hc front) hgrows1 hgrowth
    (fun r hr => .inr (setting.sees_scope (by rwa [hgrows1.chain hs.scope] at hr)))
    (fun r hr => hr.elim) nofun
  have hp : (front ++ (name.toList.map Outline.ofBinder ++ members)).Perm
      (name.toList.map Outline.ofBinder ++ front ++ members) := by
    rw [← append_assoc]
    exact perm_append_comm.append_right members
  exact (Builds.classDef name hid hkind h1 h2 h3).whole hs hfits hs3
    ((hboth.perm hp).wrap nofun nofun nofun) (hall.perm hp) (Nat.le_refl _) (fun _ => rfl) rfl nofun

theorem exportDefault_reading {i : Info} {v : VarId} {value : Expr} {t : Symbols}
    (hid : i.id = s.nextNode)
    (h : Builds o .statement { s with nextNode := s.nextNode + 1 } [] s₁ [.ofExpr value])
    (hvar : value.declaredVar? = some v ∧ t = s₁.symbols ∨
      ∃ name, (v, t) = s₁.symbols.addVariable {
        name
        form := .declared .defaultExport [s.nextNode] (some value.info.id)
        module := o.module })
    (hs : s.Fine)
    (ih : Legible .statement { s with nextNode := s.nextNode + 1 } [] s₁ [.ofExpr value]) :
    Reading .item s [] { s₁ with symbols := t }
      [.mk (.stmt (.exportDefault i v value)) [.ofExpr value]] := by
  have hs0 := hs.move hs.scope (Nat.le_succ s.nextNode)
  obtain ⟨hs1, hc, hlaid⟩ := ih hs0 trivial
  obtain ⟨hnext, hgrows, -⟩ := h.numbers
  have hentered : Entered o.module s₁.symbols t fun d _ => d = s.nextNode := by
    rcases hvar with ⟨-, rfl⟩ | ⟨name, hvar⟩
    · exact .refl _
    · cases hvar
      exact .addVariable ⟨rfl, .inl rfl⟩ fun d hd => mem_singleton.mp hd
  have hscopes : t.scopes = s₁.symbols.scopes := by
    rcases hvar with ⟨-, rfl⟩ | ⟨name, hvar⟩
    · rfl
    · cases hvar
      rfl
  have hadded : Confined (fun _ => False) (fun _ => False) True s₁.symbols t 0 :=
    .of_scopes hscopes fun _ => .inr (.inr trivial)
  have hitem : Confined (item.Sees s ·) (item.Takes s ·)
      (item = .item) s.symbols s₁.symbols (nodesOf nodes [.ofExpr value]) :=
    hc.alone.mono (fun r hr => hr) (fun r hr => hr) nofun
  have hlater : Laid s.symbols.scopes.size False t s₁.nextNode ([.ofExpr value] ++ []) := by
    refine ((hlaid (.nil _ _) fun r hr => hs0.chain_lt hr).later (Nat.le_refl _) False.elim).append
      (.nil t _) (Nat.le_of_eq (by rw [hscopes])) hs1.nested hentered (Nat.le_refl _)
      (fun n hn v hd => ?_) hadded (by simp [nodeSet_nil]) fun r hr => hr.elim
    obtain ⟨-, hle, -⟩ := h.known hc.alone hn
    exact Nat.lt_irrefl _ (hd ▸ hle)
  refine (Builds.exportDefault hid h hvar).whole hs trivial
    (hs1.vary hentered hscopes fun h => by rw [h]; exact hnext)
    (((ReadBehind.behind hitem []).trans (.of_confined hadded) hgrows hentered (fun _ => False.elim) (fun _ => False.elim)
      fun _ => rfl).wrap nofun nofun fun u hu => ?_)
    hlater (Nat.le_refl _) nofun rfl nofun
  cases hu
  rcases hvar with ⟨hown, rfl⟩ | ⟨name, hvar⟩
  · -- The name of the function or class is among the nodes of the value.
    obtain ⟨b, hb, rfl⟩ := Expr.bound_declaredVar? hown
    exact (hc.alone.reach _ (by simpa using hb)).1.2 _ rfl
  · cases hvar
    exact (size_addVariable _ _).symm ▸ Nat.lt_succ_self _

/-- Whatever is read is confined to its setting, with the parts of its expressions sealed. -/
theorem reading (h : Builds o setting s acc s' os) (hs : s.Fine) (hfits : setting.Fits s) :
    Reading setting s acc s' os := by
  induction h with
  | reads h =>
    refine ⟨hs.of_agrees h, ?_, fun hacc _ => ?_⟩
    · rw [h.symbols]
      exact .of_confined (.refl _)
    · rw [h.symbols, h.nextNode]
      exact hacc
  | next h1 h2 ih1 ih2 =>
    obtain ⟨-, hgrows, -⟩ := h1.numbers
    obtain ⟨hs1, hc1, hl1⟩ := ih1 hs hfits
    obtain ⟨hs2, hc2, hl2⟩ := ih2 hs1 (hfits.grow hgrows)
    refine ⟨hs2, ?_, fun hacc hsees => hl2 (hl1 hacc hsees) fun r hr => ?_⟩
    · exact hc1.trans hc2 hgrows h2.numbers.2.1 (fun r hr => .inr (hr.back hs hfits hgrows h1.scope))
        (fun r hr => .inr (hr.back hs hgrows h1.scope)) id
    · exact hsees r (hr.back hs hfits hgrows h1.scope)
  | apart h ih => exact h.behind (ih hs hfits) hs hfits (fun _ => id) (fun _ => id) id id
  | @expression setting _ _ _ _ h ih =>
    exact h.behind (ih hs trivial) hs trivial (fun _ => setting.sees_scope) (fun _ => False.elim)
      nofun fun _ => rfl
  | statement h ih =>
    exact h.behind (ih hs trivial) hs trivial (fun _ => id) (fun _ => id) nofun nofun
  | body h ih =>
    obtain ⟨hs1, hc, hlaid⟩ : Reading .inside _ _ _ _ := h.behind (ih (hs.listing _) trivial)
      (hs.listing _) trivial (fun _ => id) (fun _ => id) nofun nofun
    exact ⟨hs1.listing _, hc, hlaid⟩
  | @declaring setting s _ _ _ scope hadmits h ih =>
    obtain ⟨htakes, hsees⟩ := hadmits.sees
    have hinto : (Setting.declaring scope).Fits s := hsees.lt hs hfits
    refine h.behind (ih hs hinto) hs hinto (fun r hr => ?_) (fun r hr => ?_) nofun fun h => ?_
    · rcases hr with hr | rfl
      · exact setting.sees_scope hr
      · exact hsees
    · cases hr
      exact htakes
    · cases h
      exact hadmits.elim
  | @node setting s acc n _ hsimple hid hexpr hread hscope =>
    have hbound : ∀ v, n.bound? = some v → v < s.symbols.vars.size := fun v hv => by
      rw [Node.bound?_of_isSimple hsimple] at hv
      cases hv
    have hchain : ∀ r, n.scope? = some r → r < s.symbols.scopes.size ∧
        ∀ q ∈ s.symbols.chain r, setting.Sees s q := fun r hr => by
      rw [hscope r hr]
      exact ⟨hs.scope, fun q hq => setting.sees_scope hq⟩
    have hname : ∀ b, n ≠ .binder b := by
      rintro b rfl
      cases hsimple
    refine ⟨(hs.move hs.scope (Nat.le_succ _)).listing _, (ReadBehind.of_confined (.refl _)).wrap hname hchain hbound,
      fun hacc hsees => hacc.wrap (Nat.le_succ _) (fun h _ => hexpr.resolve_right (by simp [h]))
        ⟨⟨fun r hr => (hchain r hr).1, hbound⟩, hid ▸ Nat.lt_succ_self _⟩ (fun r hr => ?_)
        fun htop m hm v hd => ?_⟩
    · rcases hr with ⟨q, hq, hr⟩ | ⟨b, hb, -⟩
      · exact hsees r ((hchain q hq).2 r hr)
      · exact absurd hb (hname b)
    · rcases mem_nodeSet_mk.mp hm with rfl | hm
      · exact absurd (hs.declared hd) (hid ▸ Nat.lt_irrefl _)
      · exact hacc.placed htop m hm v hd
  | binder hkind hid =>
    exact (Builds.binder hkind hid).declared
      (.declare hs.table hkind hfits rfl (.inr rfl) rfl) hs (hs.declare hkind)
  | @block s s₁ i ss os h hid ih =>
    have hadds := Symbols.Adds.addScope s.symbols s.scope o.module .block (by decide)
    have hgrows : Entered o.module s.symbols (s.symbols.addScope .block s.scope o.module).2
        fun _ _ => False := .addScope _ _ (by decide) nofun
    have hopened := hs.opens hadds hgrows hs.scope (Nat.lt_succ_self _) False.elim
    obtain ⟨hs1, hc, hlaid⟩ := ih hopened trivial
    obtain ⟨-, hgrows', -⟩ := h.numbers
    have hopens : Confined (Setting.statement.Sees s ·) (Setting.statement.Takes s ·)
        (Setting.statement = .item) s.symbols (s.symbols.addScope .block s.scope o.module).2 0 :=
      .opens hadds (fun r hr => hr) fun hd => (hgrows.declares_or hd).imp_right False.elim
    refine (Builds.block h hid).whole hs hfits (hs1.move ?_ (Nat.le_succ _))
      (((ReadBehind.of_confined hopens).trans hc hgrows hgrows' (fun r hr => ?_) (fun r hr => ?_) id).wrap nofun nofun nofun)
      ((hlaid (.nil _ _) fun r hr => hopened.chain_lt hr).later (Nat.le_succ _) fun h => h.elim)
      hgrows.scopes_size nofun rfl nofun
    · exact Nat.lt_of_lt_of_le hs.scope (hgrows.scopes_size.trans hgrows'.scopes_size)
    · exact hadds.chain (Nat.le_refl _) (Nat.lt_succ_self _) hr
    · rcases hr with rfl | rfl
      · exact .inl (Nat.le_refl _)
      · rcases hoistScope_addScope_block hs.nested hs.scope o.module with hr | hr
        · exact .inl (Nat.le_of_eq hr.symm)
        · exact .inr (.inr hr)
  | @function setting s s₁ s2 f isArrow os name hid hkind hlists h1 h2 ih1 ih2 =>
    obtain ⟨hs1, hc1, -⟩ := ih1 (hs.move hs.scope (Nat.le_succ _)) hfits
    obtain ⟨-, hgrows1, -⟩ := h1.numbers
    have hscope : s.scope < s₁.symbols.scopes.size :=
      Nat.lt_of_lt_of_le hs.scope hgrows1.scopes_size
    have hadds := Symbols.Adds.addFunctionScope s₁.symbols s.scope o.module isArrow
    have hgrows : Entered o.module s₁.symbols
        (s₁.symbols.addFunctionScope s.scope isArrow o.module).2 fun _ _ => False :=
      .addFunctionScope _ _
    have hopened := hs1.opens hadds hgrows hscope (Nat.lt_succ_self _) False.elim
    obtain ⟨hs2, hc2, hlaid⟩ := ih2 hopened trivial
    obtain ⟨-, hgrows2, -⟩ := h2.numbers
    have hchain : ∀ r ∈ s₁.symbols.chain s.scope, setting.Sees s r := fun r hr =>
      setting.sees_scope (by rwa [hgrows1.chain hs.scope] at hr)
    have hopens : Confined (setting.Sees s ·) (setting.Takes s ·) (setting = .item) s₁.symbols
        (s₁.symbols.addFunctionScope s.scope isArrow o.module).2 0 :=
      .opens hadds hchain fun hd => (hgrows.declares_or hd).imp_right False.elim
    have hbody := (ReadBehind.of_confined hopens).trans hc2 hgrows hgrows2
      (fun r hr => (hadds.chain (Nat.le_refl _) (Nat.lt_succ_self _) hr).imp_right (hchain r))
      (fun r hr => .inl ?_) nofun
    · have hnames : Laid (s₁.symbols.addFunctionScope s.scope isArrow o.module).2.scopes.size False
          (s₁.symbols.addFunctionScope s.scope isArrow o.module).2 s₁.nextNode
          (name.toList.map .ofBinder) := by
        refine .of_leaves (Nat.le_refl _) kind?_ne_of_le (fun n hn => ?_) fun k => not_part_name
        obtain ⟨hknown, -, hlt⟩ := h1.known hc1.alone hn
        exact ⟨hgrows.knows hknown, hlt⟩
      have hos := hlaid (hnames.later (Nat.le_refl _) nofun) fun r hr => hopened.chain_lt hr
      refine (Builds.function name hid hkind hlists h1 h2).whole hs hfits (hs2.move ?_ (Nat.le_refl _))
        ((hc1.trans hbody hgrows1 (hgrows.grows.trans hgrows2.grows) (fun r hr => .inr hr)
          (fun r hr => .inr hr) id).wrap nofun nofun nofun)
        (hos.later (Nat.le_refl _) fun h => h.elim) (hgrows1.scopes_size.trans hgrows.scopes_size)
        (fun _ => rfl) rfl nofun
      exact Nat.lt_of_lt_of_le hscope (hgrows.scopes_size.trans hgrows2.scopes_size)
    · rcases hr with rfl | rfl
      · exact Nat.le_refl _
      · exact Nat.le_of_eq (s₁.symbols.hoistScope_addFunctionScope s.scope isArrow o.module).symm
  | classDef name hid hkind h1 h2 h3 ih1 ih2 ih3 =>
    exact classDef_reading name hid hkind h1 h2 h3 hs hfits ih1 ih2 ih3
  | @member body inner scope s s₁ acc os hscope h ih =>
    have hlt : scope < s.symbols.scopes.size := by
      rcases hscope with rfl | rfl
      · exact hfits.1
      · exact hfits.2
    have hsees : ∀ r ∈ s.symbols.chain scope, (members body inner).Sees s r := fun r hr => by
      rcases hscope with rfl | rfl
      · exact .inr (.inl hr)
      · exact .inr (.inr hr)
    have hmove := hs.move hlt (Nat.le_refl _)
    obtain ⟨hs1, hc, hlaid⟩ := ih hmove trivial
    obtain ⟨-, hgrows, -⟩ := h.numbers
    refine ⟨hs1.move (Nat.lt_of_lt_of_le hs.scope hgrows.scopes_size) (Nat.le_refl _),
      .behind (hc.alone.mono hsees (fun r hr => hr.elim) nofun) acc, fun hacc hlo => ?_⟩
    exact h.laid_append hmove hc.alone hacc ((hlaid (.nil _ _) fun r hr => hmove.chain_lt hr).later
      (Nat.le_refl _) fun _ => rfl) fun r hr => hlo r (hsees r hr)
  | exportDefault hid h hvar ih =>
    exact exportDefault_reading hid h hvar hs ih

end Builds

end Winnow
