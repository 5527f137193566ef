import Mathlib.Algebra.BigOperators.Group.Multiset.Basic
import Mathlib.Tactic.Abel
import Winnow.Proofs.Entering
import Winnow.Proofs.Parsing

/-!
# The numbers of nodes

A parser numbers the nodes it makes one after the other and forgets none of them: the numbers of the
nodes in its result are the numbers it used up. On its way it enters declarations into the symbol
table, each by one of these nodes. `Made` says this of the numbers and tables before and after; every
step of a parser is such a one (`Builds.made`), and with them the parsing of a whole module
(`Program.parse_numbered`).
-/

namespace Winnow

open Outline Multiset

/-! ## The nodes of a construct -/

def Outline.nodes (o : Outline) : Multiset Node := ↑o.preorder

def Stmt.nodes (s : Stmt) : Multiset Node := (Outline.ofStmt s).nodes

def nodesOf {α : Type} (f : α → Multiset Node) (l : List α) : Multiset Node := (l.map f).sum

section

variable {α : Type} (f : α → Multiset Node)

@[simp] theorem nodesOf_nil : nodesOf f [] = 0 := rfl

@[simp] theorem nodesOf_cons (a : α) (l : List α) : nodesOf f (a :: l) = f a + nodesOf f l := rfl

@[simp] theorem nodesOf_append (l l' : List α) :
    nodesOf f (l ++ l') = nodesOf f l + nodesOf f l' := by simp [nodesOf]

end

namespace Outline

theorem nodes_mk (n : Node) (os : List Outline) : (mk n os).nodes = {n} + nodesOf nodes os := by
  have h : (↑(preorders os) : Multiset Node) = nodesOf nodes os := by
    induction os with
    | nil => rfl
    | cons o os ih => rw [preorders, ← coe_add, ih]; rfl
  rw [nodes, preorder, ← cons_coe, h, singleton_add]

theorem nodesOf_mk (n : Node) (os : List Outline) :
    nodesOf nodes [mk n os] = {n} + nodesOf nodes os := by
  rw [nodesOf_cons, nodesOf_nil, add_zero, nodes_mk]

theorem nodesOf_map {α : Type} (f : α → Outline) (l : List α) :
    nodesOf nodes (l.map f) = nodesOf (fun a => (f a).nodes) l := by
  simp [nodesOf, Function.comp_def]

end Outline

/-! ## What was made between two states -/

def Node.bound? : Node → Option VarId
  | .binder b => some b.var
  | .stmt (.exportDefault _ v _) => some v
  | _ => none

/-- Whether a node is one that declares a variable: its name, a class as the receiver of its static
members, or a default export. -/
def Node.declares (v : VarId) : Node → Prop
  | .binder b => b.var = v
  | .expr (.classDef _) => True
  | .stmt (.exportDefault ..) => True
  | _ => False

theorem Node.bound?_of_isSimple {n : Node} (h : n.isSimple = true) : n.bound? = none := by
  unfold Node.isSimple at h
  split at h
  case h_6 hbinder _ _ _ hexport =>
    unfold Node.bound?
    split
    · exact absurd rfl (hbinder _)
    · exact absurd rfl (hexport _ _ _)
    · rfl
  all_goals cases h

/-- Some nodes declare a variable, or the numbers that are waiting for their nodes do. -/
def declaredBy (waiting : NodeId → Prop) (ns : Multiset Node) (d : NodeId) (v : VarId) : Prop :=
  waiting d ∨ ∃ n ∈ ns, n.id = d ∧ n.declares v

/-- Some nodes were made on the way from one number and symbol table to others. -/
structure Made (module : Option ModuleId) (waiting : NodeId → Prop) (k : NodeId) (t : Symbols)
    (k' : NodeId) (t' : Symbols) (ns : Multiset Node) : Prop where
  next : k' = k + ns.card
  ids : ns.map Node.id = ↑(List.range' k ns.card)
  entered : Entered module t t' (declaredBy waiting ns)
  bound : t.Scoped → ∀ n ∈ ns, ∀ v, n.bound? = some v → v < t'.vars.size

namespace Made

variable {module : Option ModuleId} {waiting : NodeId → Prop} {k k₁ k₂ : NodeId}
  {t t₁ t₂ : Symbols} {ns ns₁ ns₂ : Multiset Node} {n : Node}

theorem zero (h : Entered module t t₁ (declaredBy waiting 0)) : Made module waiting k t k t₁ 0 where
  next := by simp
  ids := by simp
  entered := h
  bound := by simp

theorem trans (h1 : Made module waiting k t k₁ t₁ ns₁) (h2 : Made module waiting k₁ t₁ k₂ t₂ ns₂) :
    Made module waiting k t k₂ t₂ (ns₁ + ns₂) where
  next := by rw [h2.next, h1.next, card_add, Nat.add_assoc]
  ids := by
    rw [map_add, h1.ids, h2.ids, h1.next, card_add, coe_add,
      List.range'_append_1]
  entered := by
    refine (h1.entered.mono fun d v h => ?_).trans (h2.entered.mono fun d v h => ?_)
    · exact h.imp_right fun ⟨n, hn, hd⟩ => ⟨n, mem_add.mpr (.inl hn), hd⟩
    · exact h.imp_right fun ⟨n, hn, hd⟩ => ⟨n, mem_add.mpr (.inr hn), hd⟩
  bound := fun hscoped n hn v hv => by
    rcases mem_add.mp hn with hn | hn
    · exact h2.entered.size_mono (h1.bound hscoped n hn v hv)
    · exact h2.bound (h1.entered.keeps hscoped) n hn v hv

theorem meanwhile (h : Made module (fun _ => False) k t k₁ t₁ ns) (waiting : NodeId → Prop) :
    Made module waiting k t k₁ t₁ ns :=
  ⟨h.next, h.ids, h.entered.mono fun _ _ hd => hd.elim False.elim .inr, h.bound⟩

theorem node (hid : n.id = k) (hnone : n.bound? = none) : Made module waiting k t (k + 1) t {n} where
  next := by simp
  ids := by simp [hid]
  entered := Entered.refl _
  bound := fun _ m hm v hv => by
    rw [mem_singleton.mp hm, hnone] at hv
    cases hv

/-- The node that the number was waiting for is there, with all that was made meanwhile. -/
theorem complete (hid : n.id = k) (hdeclares : ∀ d v, waiting d → d = k ∧ n.declares v)
    (hbound : t.Scoped → ∀ v, n.bound? = some v → v < t₁.vars.size)
    (h : Made module waiting (k + 1) t k₁ t₁ ns) :
    Made module (fun _ => False) k t k₁ t₁ ({n} + ns) where
  next := by rw [h.next, card_add, card_singleton, Nat.add_assoc]
  ids := by
    rw [map_add, map_singleton, hid, h.ids, card_add,
      card_singleton, Nat.add_comm 1, List.range'_succ, ← cons_coe,
      singleton_add]
  entered := by
    refine h.entered.mono fun d v hd => .inr ?_
    rcases hd with hd | ⟨m, hm, hd⟩
    · obtain ⟨rfl, hn⟩ := hdeclares d v hd
      exact ⟨n, mem_add.mpr (.inl (mem_singleton_self n)), hid, hn⟩
    · exact ⟨m, mem_add.mpr (.inr hm), hd⟩
  bound := fun hscoped m hm v hv => by
    rcases mem_add.mp hm with hm | hm
    · rw [mem_singleton.mp hm] at hv
      exact hbound hscoped v hv
    · exact h.bound hscoped m hm v hv

end Made

/-! ## What parsers make -/

theorem Expr.bound_declaredVar? {e : Expr} {v : VarId} (h : e.declaredVar? = some v) :
    ∃ b, .binder b ∈ (ofExpr e).nodes ∧ b.var = v := by
  have hbinder : ∀ (n : Node) {name : Option Binder} (os : List Outline),
      name.map Binder.var = some v →
      ∃ b, .binder b ∈ (mk n (name.toList.map .ofBinder ++ os)).nodes ∧ b.var = v := by
    intro n name os hname
    obtain ⟨b, rfl, rfl⟩ := Option.map_eq_some_iff.mp hname
    refine ⟨b, ?_, rfl⟩
    show _ ∈ (mk n (.ofBinder b :: os)).nodes
    rw [nodes_mk]
    refine mem_add.mpr (.inr (mem_add.mpr (.inl ?_)))
    exact mem_coe.mpr List.mem_cons_self
  unfold Expr.declaredVar? at h
  split at h
  · rename_i f
    obtain ⟨i, kind, name, ps, scope, returns, body⟩ := f
    split at h
    · have hmem := hbinder (.expr (.function (.mk i kind name ps scope returns body)))
        (ps.map .ofBinder ++ [.ofBody body]) h
      rwa [← List.append_assoc] at hmem
    · cases h
  · rename_i c
    obtain ⟨i, isDeclaration, name, base, ms, scope⟩ := c
    split at h
    · have hmem := hbinder (.expr (.classDef (.mk i isDeclaration name base ms scope)))
        (ofOptionalExpr base ++ ofMembers ms) h
      rwa [← List.append_assoc] at hmem
    · cases h
  · cases h

section

variable {o : ModuleText} {setting : Setting} {s s' : ParserState} {acc os : List Outline}

theorem Builds.made (h : Builds o setting s acc s' os) :
    ∃ ns, nodesOf nodes os = nodesOf nodes acc + ns ∧
      Made o.module (fun _ => False) s.nextNode s.symbols s'.nextNode s'.symbols ns := by
  induction h with
  | reads h =>
    refine ⟨0, (add_zero _).symm, ?_⟩
    rw [h.nextNode, h.symbols]
    exact .zero (.refl _)
  | next _ _ ih1 ih2 =>
    obtain ⟨ns₁, heq1, hmade1⟩ := ih1
    obtain ⟨ns₂, heq2, hmade2⟩ := ih2
    exact ⟨ns₁ + ns₂, by rw [heq2, heq1, add_assoc], hmade1.trans hmade2⟩
  | apart _ ih | expression _ ih | statement _ ih | body _ ih | declaring _ _ ih | member _ _ ih =>
    obtain ⟨ns, heq, hmade⟩ := ih
    exact ⟨ns, by rw [nodesOf_append, heq, nodesOf_nil, zero_add], hmade⟩
  | node hsimple hid =>
    exact ⟨_, by rw [nodesOf_mk, add_comm], .node hid (Node.bound?_of_isSimple hsimple)⟩
  | @binder s acc scope info name kind init hkind hid =>
    refine ⟨_, by rw [nodesOf_cons, add_comm], ?_⟩
    exact {
      next := rfl
      ids := by simpa [nodes, ofBinder, leaf, preorder,
        preorders, Node.id, Node.info] using hid
      entered := Entered.declare hkind (.inr ⟨_, mem_singleton_self _, hid, rfl⟩)
      bound := fun hscoped n hn v hv => by
        cases mem_singleton.mp hn
        cases hv
        exact (hscoped.declare_onlyIn _ _ _ _ _ _).1 }
  | @block s s1 i ss os _ hid ih =>
    obtain ⟨ns, heq, hmade⟩ := ih
    have hscope : Entered o.module s.symbols (s.symbols.addScope .block s.scope o.module).2
        (declaredBy (fun _ => False) 0) := Entered.addScope _ _ nofun nofun
    have hnode : Made o.module (fun _ => False) s1.nextNode s1.symbols (s1.nextNode + 1) s1.symbols
        {.stmt (.block i ss)} := .node hid rfl
    refine ⟨_, ?_, ((Made.zero hscope).trans hmade).trans hnode⟩
    rw [nodesOf_mk, heq]
    abel
  | @function setting s s1 s2 f isArrow os name hid hkind _ _ _ ih1 ih2 =>
    obtain ⟨ns₁, heq1, hmade1⟩ := ih1
    obtain ⟨ns₂, heq2, hmade2⟩ := ih2
    have hscope : Entered o.module s1.symbols
        (s1.symbols.addFunctionScope s.scope isArrow o.module).2 (declaredBy (fun _ => False) 0) :=
      Entered.addFunctionScope _ _
    refine ⟨_, ?_, .complete (n := .expr (.function f)) hid (fun _ _ h => h.elim) (fun _ _ h => by cases h)
      (hmade1.trans ((Made.zero hscope).trans hmade2))⟩
    rw [nodesOf_mk, heq2, heq1]
    abel
  | @classDef setting s s1 s2 s3 c front members name hid hkind _ _ _ ih1 ih2 ih3 =>
    obtain ⟨ns₁, heq1, hmade1⟩ := ih1
    obtain ⟨ns₂, heq2, hmade2⟩ := ih2
    obtain ⟨ns3, heq3, hmade3⟩ := ih3
    have hscope : Entered o.module s1.symbols
        (s1.symbols.addClassScope s.scope s.nextNode o.module).2 (declaredBy (· = s.nextNode) 0) :=
      Entered.addClassScope _ (.inl rfl)
    refine ⟨_, ?_, .complete (n := .expr (.classDef c)) hid (fun _ _ h => ⟨h, trivial⟩)
      (fun _ _ h => by cases h) ((hmade1.meanwhile _).trans
        ((Made.zero hscope).trans ((hmade2.trans hmade3).meanwhile _)))⟩
    rw [nodesOf_mk, nodesOf_append, nodesOf_append, heq1, heq2, heq3]
    abel
  | @exportDefault s s1 i v value t hid _ hvar ih =>
    obtain ⟨ns, heq, hmade⟩ := ih
    rw [nodesOf_nil, zero_add] at heq
    have hentered : Entered o.module s1.symbols t (declaredBy (· = s.nextNode) 0) := by
      rcases hvar with ⟨-, rfl⟩ | ⟨name, hvar⟩
      · exact Entered.refl _
      · cases hvar
        refine Entered.addVariable ⟨rfl, .inl rfl⟩ fun d hd => .inl ?_
        exact List.mem_singleton.mp hd
    refine ⟨_, ?_, .complete (n := .stmt (.exportDefault i v value)) hid (fun _ _ h => ⟨h, trivial⟩)
      (fun hscoped u hu => ?_) ((hmade.meanwhile _).trans (.zero hentered))⟩
    · rw [nodesOf_mk, heq]
      abel
    · cases hu
      rcases hvar with ⟨hown, rfl⟩ | ⟨name, hvar⟩
      · obtain ⟨b, hb, rfl⟩ := Expr.bound_declaredVar? hown
        rw [nodesOf_cons, nodesOf_nil, add_zero] at heq
        exact hmade.bound hscoped _ (heq ▸ hb) _ rfl
      · cases hvar
        exact (Symbols.size_addVariable _ _).symm ▸ Nat.lt_succ_self _

end

/-! ## Modules -/

/-- What a parsed module holds: the nodes of its program have the numbers from the given one on, and
its scopes and variables were entered after those of the bundle. -/
structure Parsed.Numbered (module : Option ModuleId) (t : Symbols) (next : NodeId) (p : Parsed) :
    Prop where
  root : p.program.info.id = next
  after : p.nextNode = next + 1 + (nodesOf Stmt.nodes p.program.body).card
  ids : (nodesOf Stmt.nodes p.program.body).map Node.id =
    ↑(List.range' (next + 1) (nodesOf Stmt.nodes p.program.body).card)
  entered : Entered module t p.symbols
    fun d v => ∃ n ∈ nodesOf Stmt.nodes p.program.body, n.id = d ∧ n.declares v
  scope : p.symbols.kind? p.program.scope = some .module
  owner : p.symbols.owner? p.program.scope = module
  bound : t.Scoped → ∀ n ∈ nodesOf Stmt.nodes p.program.body, ∀ v, n.bound? = some v →
    v < p.symbols.vars.size

theorem Program.parse_numbered {source defaultName : Bytes} {module : Option ModuleId}
    {t : Symbols} {next : NodeId} {p : Parsed}
    (h : Program.parse source module defaultName t next = .ok p) : p.Numbered module t next := by
  obtain ⟨s, s', -, hnext, hsymbols, hroot, hscope, hsymbols', hnext', hbuilds⟩ :=
    Program.parse_builds h
  obtain ⟨ns, heq, hmade⟩ := hbuilds.made
  rw [ofStmts_eq, nodesOf_map, nodesOf_nil, zero_add] at heq
  subst heq
  rw [hnext, hsymbols, ← hnext', ← hsymbols'] at hmade
  have hentered := hmade.entered.mono fun _ _ hd => hd.elim False.elim id
  have hmodule : Entered module t (t.addScope .module Symbols.globalScope module).2
      fun d v => ∃ n ∈ nodesOf Stmt.nodes p.program.body, n.id = d ∧ n.declares v :=
    Entered.addScope _ _ nofun fun _ => rfl
  have hview := t.map_scope?_addScope .module Symbols.globalScope module
    (fun scope => (scope.kind, scope.module)) (fun _ _ => rfl) t.scopes.size
  rw [if_pos rfl] at hview
  obtain ⟨scope, hs, hpair⟩ := Option.map_eq_some_iff.mp hview
  obtain ⟨hkind, howner⟩ := Prod.mk.inj hpair
  obtain ⟨scope', hs', hkind', -, howner'⟩ := hentered.scopes hs
  refine ⟨hroot, hmade.next, hmade.ids, hmodule.trans hentered, ?_, ?_,
    fun hscoped => hmade.bound (hmodule.keeps hscoped)⟩
  · rw [hscope]
    exact Option.map_eq_some_iff.mpr ⟨scope', hs', hkind'.trans hkind⟩
  · rw [hscope, Symbols.owner?, hs']
    exact howner'.trans howner

end Winnow
